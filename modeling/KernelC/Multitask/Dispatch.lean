import KernelC.Multitask.Context

/-!
# The first run of a task

Tasks that have never run stand behind one another in the ring, behind the task that runs.
Whatever is computed and created in the meantime, each tick starts the next of them, with
its initial context (`dispatched_prefix`). So the order in which tasks are created is the
order in which they start.
-/

namespace KernelC.Multitask

/-- What a tick hands over to: the task that is current then, and its context. -/
def Event.turn (m : Machine) : Event → List (Nat × Context)
  | .tick _ => [(m.sched.current, m.cpu)]
  | _ => []

/-- The turns of a run, in order. -/
def dispatched (m : Machine) : List Event → List (Nat × Context)
  | [] => []
  | e :: es =>
    match m.step e with
    | none => []
    | some m' => e.turn m' ++ dispatched m' es

section

variable {s s' : Sched} {head t : Nat} {u v z : List Nat}

/-- A tick hands over to the task behind the one that runs, if that can run. -/
theorem tick_next (h : Inv s head (u ++ s.running :: t :: v) z) (ht : runnable s t = true)
    {regs out : Nat} (hs : scheduleFromIsr s regs = some (s', out)) :
    s'.current = t ∧ Quiet s s' := by
  obtain ⟨s₁, out₁, hs₁, hq, hpick, -⟩ := scheduleFromIsr_picks h regs
  rw [hs, Option.some.injEq, Prod.mk.injEq] at hs₁
  obtain ⟨rfl, rfl⟩ := hs₁
  have hinit := h.lists.ready _ h.lists.init h.lists.initLive
  have hsave := saveCurrent_quiet hinit regs
  obtain ⟨hsaved, hrunning⟩ := h.saveCurrent regs
  have hnext : s.next s.running = t := by
    obtain ⟨m, -, rfl, rfl, -⟩ := path_append.mp h.lists.ring.path
    rfl
  obtain ⟨w, hw, hperm⟩ := hsaved.lists.ring.cycle (hsaved.next_current_mem hrunning)
  have hfind := pickNext_eq hsaved hrunning hw hperm
  rw [hpick, Option.some.injEq] at hfind
  -- the first task of the order is `t`, and it can run
  obtain ⟨x, w', rfl⟩ := List.exists_cons_of_ne_nil hw.nonempty
  have hx : x = t := by
    rw [← hw.path.1, saveCurrent_current, hsave.next, hnext]
  have hrun : runnable (saveCurrent s regs) x = true := by
    rw [hx]
    exact (hsave.canRun t).trans ht
  rw [List.find?_cons_of_pos hrun, hx] at hfind
  exact ⟨Option.some.inj hfind, hq⟩

end

variable {m m' : Machine} {w : List (Nat × Context)} {t : Nat} {c : Context}

/-- Behind the task that runs come the tasks `w`, which will go on with the contexts that they
are listed with. -/
structure Upcoming (m : Machine) (w : List (Nat × Context)) : Prop where
  kept : ∃ u v z, Kept m (u ++ m.sched.running :: (w.map Prod.fst ++ v)) z
  canRun : ∀ p ∈ w, runnable m.sched p.1 = true
  saved : ∀ p ∈ w, m.saved p.1 = p.2

namespace Upcoming

theorem code (h : Upcoming m w) {cpu : Context} {writes : List (Nat × Nat)}
    (ho : Allowed m (.code cpu writes)) (hs : m.step (.code cpu writes) = some m') :
    Upcoming m' w := by
  obtain rfl := Option.some.inj hs
  obtain ⟨u, v, z, hkept⟩ := h.kept
  exact ⟨⟨u, v, z, hkept.code cpu ho⟩, h.canRun, h.saved⟩

/-- A new task comes to the end of the ring. -/
theorem create (h : Upcoming m w) {entry size mem memSize t kstack : Nat}
    (ho : Allowed m (.create entry size mem memSize t kstack))
    (hs : m.step (.create entry size mem memSize t kstack) = some m') : Upcoming m' w := by
  obtain ⟨u, v, z, hkept⟩ := h.kept
  rw [Machine.step] at hs
  split at hs
  next hfailed =>
    obtain rfl := Option.some.inj hs
    have hsame := createTask_failed m.sched entry size mem memSize hfailed
    rw [hsame]
    exact h
  next hmade =>
    obtain rfl := Option.some.inj hs
    obtain ⟨ht0, hk0⟩ := not_or.mp hmade
    have hm := hkept.inv.made entry size mem memSize ht0 hk0 ho.1
    have hkept' := hkept.create entry size mem memSize ht0 hk0 ho.1 (ho.2 ht0 hk0)
    have hrunning : (createTask m.sched entry size mem memSize t kstack).1.running =
        m.sched.running := by
      unfold Sched.running
      rw [hm.current]
    -- the new task is none of `w`
    have hne : ∀ p ∈ w, p.1 ≠ t := by
      intro p hp he
      have hmem : t ∈ u ++ m.sched.running :: (w.map Prod.fst ++ v) := by
        rw [← he]
        simp only [List.mem_append, List.mem_cons]
        exact .inr (.inr (.inl (List.mem_map_of_mem hp)))
      obtain ⟨hfresh, hti, -⟩ := ho.1.1 ht0
      exact hfresh (hkept.inv.owned.record t (List.mem_append_left _ hmem) hti)
    refine ⟨⟨u, v ++ [t], z, ?_⟩, fun p hp => ?_, fun p hp => ?_⟩
    · dsimp only
      rw [hrunning]
      simpa only [List.append_assoc, List.cons_append] using hkept'
    · rw [← h.canRun p hp]
      unfold runnable
      dsimp only
      rw [hm.old p.1 (hne p hp)]
    · exact (Function.update_of_ne (hne p hp) _ _).trans (h.saved p hp)

/-- A tick starts the first of them. -/
theorem tick (h : Upcoming m ((t, c) :: w)) {scratch : List (Nat × Nat)}
    (ho : Allowed m (.tick scratch)) (hs : m.step (.tick scratch) = some m') :
    m'.sched.current = t ∧ m'.cpu = c ∧ Upcoming m' w := by
  obtain ⟨u, v, z, hkept⟩ := h.kept
  obtain ⟨m₁, hm₁, hkept', hsaved, hcpu⟩ := hkept.tick ho
  rw [hs] at hm₁
  obtain rfl := Option.some.inj hm₁
  have hring := hkept.inv.lists.ring.nodup
  have ht := hkept.inv.owned.nonnull t (by simp)
  obtain ⟨⟨s', out⟩, hcall, hm'⟩ := Option.map_eq_some_iff.mp hs
  have hinv := hkept.inv.withStack (stores (saveFrame m.sched.stack m.cpu).mem scratch)
  obtain ⟨hcur, hq⟩ := tick_next (v := w.map Prod.fst ++ v) hinv
    (h.canRun (t, c) List.mem_cons_self) hcall
  have hsched : m'.sched = s' := by rw [← hm']
  rw [← hsched] at hcur hq
  -- the context of a task that waits is not touched
  have hother : ∀ p ∈ (t, c) :: w, m'.saved p.1 = p.2 := by
    intro p hp
    rw [hsaved, Function.update_of_ne ?_, h.saved p hp]
    rintro he
    have hmem : m.sched.running ∈ ((t, c) :: w).map Prod.fst ++ v :=
      List.mem_append_left _ (he ▸ List.mem_map_of_mem hp)
    exact (List.nodup_cons.mp (List.nodup_append.mp hring).2.1).1 hmem
  refine ⟨hcur, ?_, ⟨u ++ [m.sched.running], v, z, ?_⟩, fun p hp => ?_, fun p hp => ?_⟩
  · rw [hcpu, hcur]
    exact hother (t, c) List.mem_cons_self
  · have hrunning : m'.sched.running = t := by
      unfold Sched.running
      rw [hcur, if_neg ht]
    rw [hrunning]
    simpa only [List.append_assoc, List.cons_append, List.nil_append, List.map_cons] using hkept'
  · exact (hq.canRun p.1).trans (h.canRun p (List.mem_cons_of_mem _ hp))
  · exact hother p (List.mem_cons_of_mem _ hp)

end Upcoming

/-- The turns of a run begin with the tasks that were waiting, each with its own context, until
all of them have started. -/
theorem dispatched_prefix (h : Upcoming m w) {es : List Event}
    (hr : Run Machine.step Allowed m es m') : (dispatched m es).take w.length <+: w := by
  induction hr generalizing w with
  | nil m =>
    rw [dispatched, List.take_nil]
    exact List.nil_prefix
  | @cons m m₁ m' e es ho hs _ ih =>
    rw [dispatched, hs]
    dsimp only
    cases e with
    | create entry size mem memSize t kstack => exact ih (h.create ho hs)
    | code cpu writes => exact ih (h.code ho hs)
    | tick scratch =>
      cases w with
      | nil => exact List.nil_prefix
      | cons p w =>
        obtain ⟨hcur, hcpu, hnext⟩ := h.tick ho hs
        rw [Event.turn, hcur, hcpu]
        exact List.prefix_cons_inj _ |>.mpr (ih hnext)

end KernelC.Multitask
