import KernelC.Multitask.Isr
import KernelC.Multitask.Runs

/-!
# Contexts survive the switches

A run of the machine consists of creations, of the code of the task that runs,
and of timer interrupts. `saved` is what each task should go on with: the context
at its last interruption, or `initialContext` for a task that never ran.

No task writes into the stack of another one (`Allowed`). A task's stack is the
block that was allocated for it and the frame that is saved for it; the boot
code, which becomes `init_task`, runs on a stack of its own outside the heap. So
the frame of a task that does not run keeps its words (`Kept`), and what the
handler restores is what was saved (`context_preserved`).
-/

namespace KernelC.Multitask

variable {s s' : Sched} {head : Nat} {l z : List Nat}

/-! ## The machine -/

/-- The last two fields are not in the source: the tasks there are, and the
context that each of them should go on with. -/
structure Machine where
  sched : Sched
  cpu : Context
  tasks : List Nat
  saved : Nat → Context

inductive Event
  | create (entry stackSize userMem userMemSize t kstack : Nat)
  /-- The running task computes: it sets the registers and makes the stores. -/
  | code (cpu : Context) (writes : List (Nat × Nat))
  /-- The timer; `scratch` is what the C functions store on the stack. -/
  | tick (scratch : List (Nat × Nat))

def boot (task : Nat → Task) (stack : Nat → Nat) (cpu : Context) : Machine :=
  { sched := start task stack, cpu := cpu, tasks := [initTask], saved := fun _ => cpu }

/-- `kstack + stack_size`, with the default of `task_create`. -/
def kstackTop (stackSize kstack : Nat) : Nat :=
  (kstack + if stackSize = 0 then 8 * 1024 else stackSize) % 2 ^ 64

def Machine.step (m : Machine) : Event → Option Machine
  | .create entry size mem memSize t kstack =>
    let s := (createTask m.sched entry size mem memSize t kstack).1
    if t = 0 ∨ kstack = 0 then some { m with sched := s }
    else
      some { m with
        sched := s
        tasks := t :: m.tasks
        saved := Function.update m.saved t (initialContext entry (kstackTop size kstack)) }
  | .code cpu writes =>
    some { m with sched := { m.sched with stack := stores m.sched.stack writes }, cpu := cpu }
  | .tick scratch =>
    let st := saveFrame m.sched.stack m.cpu
    (scheduleFromIsr { m.sched with stack := stores st.mem scratch } st.sp).map fun r =>
      { m with
        sched := r.1
        cpu := restoreFrame r.1.stack m.cpu r.2
        saved := Function.update m.saved m.sched.running m.cpu }

def frameSlots (sp : Nat) : List Nat := (List.range 22).map (slot sp)

/-- The stack of the task at `a`: its block, and its saved frame. -/
def InStack (s : Sched) (a x : Nat) : Prop :=
  ((s.task a).kstack ≤ x ∧ x < (s.task a).kstack + (s.task a).kstackSize) ∨
    x ∈ frameSlots (s.task a).regs

/-- The addresses are in no stack of a task that does not run. -/
def Avoids (m : Machine) (xs : List Nat) : Prop :=
  ∀ a ∈ m.tasks, a ≠ m.sched.running → ∀ x ∈ xs, ¬ InStack m.sched a x

/-- The allocator returns fresh blocks, and nothing is written into the stack of
a task that does not run. The C functions leave the frame alone that they are
called with. -/
def Allowed (m : Machine) : Event → Prop
  | .create entry size _ _ t kstack =>
    Fresh m.sched t kstack ∧ (t ≠ 0 → kstack ≠ 0 →
      Avoids m (frameSlots (prepareInitialStack m.sched.stack entry (kstackTop size kstack)).2))
  | .code _ writes => Avoids m (writes.map Prod.fst)
  | .tick scratch =>
    Avoids m (frameSlots (frameBase m.sched.stack m.cpu) ++ scratch.map Prod.fst) ∧
      ∀ w ∈ scratch, w.1 ∉ frameSlots (frameBase m.sched.stack m.cpu)

instance (s : Sched) (a x : Nat) : Decidable (InStack s a x) := inferInstanceAs (Decidable (_ ∨ _))

instance (m : Machine) (xs : List Nat) : Decidable (Avoids m xs) :=
  inferInstanceAs (Decidable (∀ a ∈ m.tasks, a ≠ m.sched.running → ∀ x ∈ xs, ¬ InStack m.sched a x))

instance (m : Machine) (e : Event) : Decidable (Allowed m e) :=
  match e with
  | .create .. => inferInstanceAs (Decidable (_ ∧ _))
  | .code _ writes => inferInstanceAs (Decidable (Avoids m (writes.map Prod.fst)))
  | .tick _ => inferInstanceAs (Decidable (_ ∧ _))

/-! ## What the scheduler does with the frames -/

theorem mem_frameSlots {sp x : Nat} : x ∈ frameSlots sp ↔ ∃ i < 22, slot sp i = x := by
  simp [frameSlots]

/-- The scheduler does not look at the stacks. -/
theorem Inv.withStack (h : Inv s head l z) (mem : Nat → Nat) :
    Inv { s with stack := mem } head l z :=
  ⟨⟨h.lists.ring, h.lists.zombies, h.lists.init, h.lists.initLive, h.lists.ready, h.lists.ended⟩,
    ⟨h.owned.nonnull, h.owned.bounded, h.owned.record, h.owned.stack, h.owned.stackApart,
      h.owned.stackInj, h.owned.uidInit, h.owned.uidInj, h.owned.uidLe⟩,
    ⟨h.fates.known, h.fates.complete, h.fates.absent, h.fates.freed, h.fates.once,
      h.fates.notCurrent⟩, h.current, ⟨h.pids.pid, h.pids.nextPid⟩⟩

theorem saveCurrent_regs (s : Sched) (regs a : Nat) :
    ((saveCurrent s regs).task a).regs = if a = s.running then regs else (s.task a).regs := by
  unfold saveCurrent Sched.running
  split
  · dsimp only [useKstack]
    by_cases ha : a = initTask
    · rw [if_pos ha, ha, modify_self]
    · rw [if_neg ha, modify_of_ne s _ ha]
  · by_cases ha : a = s.current
    · rw [if_pos ha, ha, modify_self]
    · rw [if_neg ha, modify_of_ne s _ ha]

theorem saveCurrent_stack (s : Sched) (regs : Nat) : (saveCurrent s regs).stack = s.stack := by
  unfold saveCurrent
  split <;> rfl

/-- The frame that is handed back is the one in the record of the task that is
current then; the interrupted task's record gets the new frame. -/
theorem scheduleFromIsr_regs {regs out : Nat} (h : scheduleFromIsr s regs = some (s', out)) :
    s'.stack = s.stack ∧ out = (s'.task s'.current).regs ∧
      ∀ a, (s'.task a).regs = if a = s.running then regs else (s.task a).regs := by
  have hregs := saveCurrent_regs s regs
  have hstack := saveCurrent_stack s regs
  have hcur := saveCurrent_current s regs
  unfold scheduleFromIsr at h
  generalize saveCurrent s regs = u at hregs hstack hcur h
  obtain ⟨picked, -, hout⟩ := Option.map_eq_some_iff.mp h
  have hmodify : ∀ n a, ((u.modify n fun t => { t with state := .running }).task a).regs =
      (u.task a).regs := fun n a => modify_field Task.regs rfl a
  cases picked with
  | none =>
    obtain ⟨rfl, rfl⟩ := Prod.mk.inj hout
    refine ⟨hstack, ?_, hregs⟩
    rw [hregs, hcur, if_pos rfl]
  | some n =>
    dsimp only at hout
    split at hout
    · obtain ⟨rfl, rfl⟩ := Prod.mk.inj hout
      refine ⟨hstack, ?_, fun a => ?_⟩
      · exact (hmodify u.current u.current).symm
      · exact (hmodify u.current a).trans (hregs a)
    · obtain ⟨rfl, rfl⟩ := Prod.mk.inj hout
      exact ⟨hstack, rfl, fun a => (hmodify n a).trans (hregs a)⟩

theorem setNext_regs (s : Sched) (a v b : Nat) :
    ((s.setNext a v).task b).regs = (s.task b).regs := by
  rw [(setNext_onlyRing s a v).record b]

theorem insertTail_frame (s : Sched) (t : Nat) :
    (insertTail s t).stack = s.stack ∧ ((insertTail s t).task t).regs = (s.task t).regs := by
  unfold insertTail
  split
  · exact ⟨rfl, setNext_regs s t t t⟩
  · exact ⟨rfl, (setNext_regs _ _ _ t).trans (setNext_regs _ _ _ t)⟩

/-- Where a new task's frame is. -/
theorem createTask_frame (s : Sched) (entry size mem memSize : Nat) {t kstack : Nat} (ht0 : t ≠ 0)
    (hk0 : kstack ≠ 0) :
    let s' := (createTask s entry size mem memSize t kstack).1
    let first := prepareInitialStack s.stack entry (kstackTop size kstack)
    s'.stack = first.1 ∧ (s'.task t).regs = first.2 := by
  unfold createTask kstackTop
  simp only [if_neg ht0, if_neg hk0]
  generalize hu : Sched.mk _ _ _ _ _ _ _ _ _ _ _ = u
  obtain ⟨hstack, hregs⟩ := insertTail_frame u t
  rw [hstack, hregs, ← hu]
  refine ⟨rfl, ?_⟩
  dsimp only
  rw [Function.update_self]

/-! ## The invariant -/

/-- The frame of every task that does not run has the words of its context. -/
structure Kept (m : Machine) (l z : List Nat) : Prop where
  inv : Inv m.sched m.sched.zombieList l z
  known : ∀ a ∈ l, a ∈ m.tasks
  frames : ∀ a ∈ l, a ≠ m.sched.running →
    frame m.sched.stack (m.sched.task a).regs 22 = contextWords (m.saved a)

variable {m : Machine}

/-- An address that is written is in no frame of a task that does not run. -/
theorem Kept.apart (h : Kept m l z) {xs : List Nat} (hav : Avoids m xs) {a : Nat} (ha : a ∈ l)
    (hrun : a ≠ m.sched.running) {x : Nat} (hx : x ∈ xs) {i : Nat} (hi : i < 22) :
    x ≠ slot (m.sched.task a).regs i := fun he =>
  hav a (h.known a ha) hrun x hx (.inr (mem_frameSlots.mpr ⟨i, hi, he.symm⟩))

theorem Kept.code (h : Kept m l z) (cpu : Context) {writes : List (Nat × Nat)}
    (hav : Avoids m (writes.map Prod.fst)) :
    Kept { m with sched := { m.sched with stack := stores m.sched.stack writes }, cpu := cpu }
      l z := by
  refine ⟨h.inv.withStack _, h.known, fun a ha hrun => ?_⟩
  refine Eq.trans ?_ (h.frames a ha hrun)
  exact frame_stores fun w hw i hi => h.apart hav ha hrun (List.mem_map_of_mem hw) hi

theorem Kept.create (h : Kept m l z) (entry size mem memSize : Nat) {t kstack : Nat} (ht0 : t ≠ 0)
    (hk0 : kstack ≠ 0) (hfresh : Fresh m.sched t kstack)
    (hav : Avoids m (frameSlots (prepareInitialStack m.sched.stack entry (kstackTop size kstack)).2)) :
    Kept { m with
      sched := (createTask m.sched entry size mem memSize t kstack).1
      tasks := t :: m.tasks
      saved := Function.update m.saved t (initialContext entry (kstackTop size kstack)) }
      (l ++ [t]) z := by
  have hm := h.inv.made entry size mem memSize ht0 hk0 hfresh
  obtain ⟨hstack, hregs⟩ := createTask_frame m.sched entry size mem memSize ht0 hk0
  refine ⟨h.inv.create hm ht0 hk0 hfresh, fun a ha => ?_, fun a ha hrun => ?_⟩
  · rcases List.mem_append.mp ha with ha | ha
    · exact List.mem_cons_of_mem _ (h.known a ha)
    · rw [List.mem_singleton.mp ha]
      exact List.mem_cons_self
  · dsimp only at hrun ⊢
    by_cases hat : a = t
    · subst hat
      rw [hstack, hregs, Function.update_self]
      exact frame_prepareInitialStack _ _ _
    · have hal : a ∈ l := by simpa [hat] using ha
      have hrun' : a ≠ m.sched.running := by
        unfold Sched.running at hrun ⊢
        rw [hm.current] at hrun
        exact hrun
      rw [hstack, hm.old a hat, Function.update_of_ne hat, ← h.frames a hal hrun']
      refine frame_congr fun i hi => prepareInitialStack_of_ne fun j hj he => ?_
      exact h.apart hav hal hrun' (mem_frameSlots.mpr ⟨j, hj, rfl⟩) hi he.symm

/-- An interruption: the interrupted task's context is saved, and the context
that is restored is the one that was saved for the task that is current then. -/
theorem Kept.tick (h : Kept m l z) {scratch : List (Nat × Nat)} (ho : Allowed m (.tick scratch)) :
    ∃ m', m.step (.tick scratch) = some m' ∧ Kept m' l z ∧
      m'.saved = Function.update m.saved m.sched.running m.cpu ∧
      m'.cpu = m'.saved m'.sched.current := by
  obtain ⟨hav, hown⟩ := ho
  let st := saveFrame m.sched.stack m.cpu
  let u := { m.sched with stack := stores st.mem scratch }
  have hu : Inv u u.zombieList l z := h.inv.withStack _
  obtain ⟨s', out, hs', hq, -, hmem⟩ := scheduleFromIsr_picks hu st.sp
  obtain ⟨hstack, hout, hregs⟩ := scheduleFromIsr_regs hs'
  have hframes : ∀ a ∈ l, frame s'.stack (s'.task a).regs 22 =
      contextWords (Function.update m.saved m.sched.running m.cpu a) := by
    intro a ha
    rw [hstack, hregs, show u.running = m.sched.running from rfl]
    by_cases hrun : a = m.sched.running
    · rw [if_pos hrun, hrun, Function.update_self, ← frame_saveFrame m.sched.stack m.cpu]
      exact frame_stores fun w hw i hi he => hown w hw (mem_frameSlots.mpr ⟨i, hi, he.symm⟩)
    · rw [if_neg hrun, Function.update_of_ne hrun, ← h.frames a ha hrun]
      refine (frame_stores fun w hw i hi => ?_).trans (frame_congr fun i hi => ?_)
      · exact h.apart hav ha hrun (List.mem_append_right _ (List.mem_map_of_mem hw)) hi
      · refine saveFrame_of_ne fun j hj he => ?_
        exact h.apart hav ha hrun (List.mem_append_left _ (mem_frameSlots.mpr ⟨j, hj, rfl⟩)) hi
          he.symm
  have hinv : Inv s' s'.zombieList l z := by
    rw [hq.zombieList]
    exact hu.quiet hq (.inr (.inl hmem))
  refine ⟨{ m with
    sched := s'
    cpu := restoreFrame s'.stack m.cpu out
    saved := Function.update m.saved m.sched.running m.cpu }, ?_, ⟨hinv, h.known, ?_⟩, rfl, ?_⟩
  · rw [Machine.step]
    dsimp only
    rw [hs', Option.map_some]
  · exact fun a ha _ => hframes a ha
  · refine restoreFrame_eq m.cpu ?_
    rw [hout]
    exact hframes _ hmem

/-- All general registers hold `v`. -/
def plainContext (v rip rsp : Nat) : Context :=
  { gpr := fun _ => v, rip := rip, cs := 0x08, rflags := 0x202, rsp := rsp, ss := 0x10 }

end KernelC.Multitask
