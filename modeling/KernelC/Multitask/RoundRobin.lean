import KernelC.Multitask.Runs

/-!
# Round-robin service

The tasks that can run, in ring order behind the current one, are the order of
service. A tick makes the first of them current and leaves ring and states as
they are (`Quiet`), so the order behind the new current task is the old one
turned by one place (`tick_serves`). As many ticks as there are such tasks go
through the whole order (`round_robin`).

The order starts at `current->next` also when the current task is a zombie, in
the ring or already taken out of it.
-/

namespace KernelC.Multitask

variable {s s' : Sched} {head : Nat} {l z w : List Nat}

/-- Timer ticks with the saved frames `regs`, and nothing else. Returns the task
that is current after each. -/
def serve (s : Sched) : List Nat → Option (List Nat × Sched)
  | [] => some ([], s)
  | regs :: rest =>
    (scheduleFromIsr s regs).bind fun r =>
      (serve r.1 rest).map fun q => (r.1.current :: q.1, q.2)

/-- The ring in the order behind the current task. -/
structure Behind (s : Sched) (l w : List Nat) : Prop where
  cycle : Cycle s.next (s.next s.current) w
  perm : w.Perm l

theorem Inv.behind (h : Inv s head l z) (h0 : s.current ≠ 0) : ∃ w, Behind s l w := by
  obtain ⟨w, hw, hperm⟩ := h.lists.ring.cycle (h.next_current_mem h0)
  exact ⟨w, hw, hperm⟩

/-- One tick: the first task of the order becomes current and the last of the
new order. -/
theorem tick_serves (h : Inv s head l z) (h0 : s.current ≠ 0) (hw : Behind s l w) (regs : Nat) :
    ∃ s' out w', scheduleFromIsr s regs = some (s', out) ∧ Inv s' head l z ∧ s'.current ≠ 0 ∧
      Behind s' l w' ∧ (w.filter (runnable s)).head? = some s'.current ∧
      w'.filter (runnable s') = (w.filter (runnable s)).tail ++ [s'.current] := by
  obtain ⟨s', out, hs', hq, hpick, hmem⟩ := scheduleFromIsr_picks h regs
  have hinit := h.lists.ready _ h.lists.init h.lists.initLive
  have hsave := saveCurrent_quiet hinit regs
  obtain ⟨hsaved, hrunning⟩ := h.saveCurrent regs
  have hcur : (saveCurrent s regs).current = s.current := by
    rw [saveCurrent_current, Sched.running, if_neg h0]
  -- saving the current task changes neither the ring nor which tasks can run
  have hrun : ∀ {u}, Quiet s u → runnable u = runnable s := fun hu => funext hu.canRun
  have hfind : w.find? (runnable s) = some s'.current := by
    have heq := pickNext_eq hsaved hrunning (w := w) (by rw [hsave.next, hcur]; exact hw.cycle)
      hw.perm
    rw [hpick, hrun hsave] at heq
    exact (Option.some.inj heq).symm
  obtain ⟨hrunnable, u, v, rfl, hbefore⟩ := List.find?_eq_some_iff_append.mp hfind
  have hu : u.filter (runnable s) = [] :=
    List.filter_eq_nil_iff.mpr fun a ha => by simpa using hbefore a ha
  have hs0 := h.owned.nonnull _ (List.mem_append_left _ hmem)
  have hfilter : (u ++ s'.current :: v).filter (runnable s) =
      s'.current :: v.filter (runnable s) := by
    rw [List.filter_append, hu, List.nil_append, List.filter_cons_of_pos hrunnable]
  refine ⟨s', out, v ++ u ++ [s'.current], hs', h.quiet hq (.inr (.inl hmem)), hs0,
    ⟨?_, ?_⟩, ?_, ?_⟩
  · rw [hq.next]
    exact hw.cycle.turn
  · refine List.Perm.trans ?_ hw.perm
    rw [List.append_assoc]
    exact List.perm_append_comm.trans (by simp)
  · rw [hfilter, List.head?_cons]
  · rw [hrun hq, hfilter, List.filter_append, List.filter_append, hu, List.append_nil,
      List.filter_cons_of_pos hrunnable, List.tail_cons]
    rfl

/-- Up to a full round, the ticks go through the order from its start. -/
theorem serve_take (h : Inv s head l z) (h0 : s.current ≠ 0) (hw : Behind s l w) {regs : List Nat}
    (hlen : regs.length ≤ (w.filter (runnable s)).length) :
    ∃ s', serve s regs = some ((w.filter (runnable s)).take regs.length, s') := by
  induction regs generalizing s w with
  | nil => exact ⟨s, rfl⟩
  | cons r rest ih =>
    obtain ⟨u, out, w', hu, hinv, hu0, hw', hhead, hrest⟩ := tick_serves h h0 hw r
    obtain ⟨q, hq⟩ := List.head?_eq_some_iff.mp hhead
    rw [hq, List.tail_cons] at hrest
    rw [hq, List.length_cons, List.length_cons] at hlen
    obtain ⟨s', hs'⟩ := ih hinv hu0 hw' (by rw [hrest, List.length_append]; omega)
    refine ⟨s', ?_⟩
    rw [hrest, List.take_append_of_le_length (by omega)] at hs'
    rw [serve, hu, Option.bind_some, hs', hq]
    rfl

/-- In every state that is reached with a current task: there is a next task and
it is no zombie, and as many ticks as there are tasks that can run make each of
them current once, in ring order behind the current task. -/
theorem round_robin (task : Nat → Task) (stack : Nat → Nat) {os : List Op} {s : Sched}
    (hr : Run step Permitted (start task stack) os s) (h0 : s.current ≠ 0) :
    (∃ n, pickNext s = some (some n) ∧ (s.task n).state ≠ .zombie) ∧
    ∃ l w, Ring s.next s.taskRing l ∧ Path s.next (s.next s.current) w (s.next s.current) ∧
      w.Perm l ∧ w.Nodup ∧
      ∀ regs : List Nat, regs.length = (l.filter (runnable s)).length →
        ∃ s', serve s regs = some (w.filter (runnable s), s') := by
  obtain ⟨l, z, hinv⟩ := run_permitted hr
  obtain ⟨n, hn, -⟩ := pickNext_spec hinv h0
  obtain ⟨w, hw⟩ := hinv.behind h0
  refine ⟨⟨n, hn, fun hz => ?_⟩, l, w, hinv.lists.ring, hw.cycle.path, hw.perm, hw.cycle.nodup,
    fun regs hlen => ?_⟩
  · have hrun := runnable_of_pickNext hn
    rw [runnable, hz] at hrun
    exact absurd hrun (by decide)
  · rw [← (hw.perm.filter _).length_eq] at hlen
    obtain ⟨s', hs'⟩ := serve_take hinv h0 hw (Nat.le_of_eq hlen)
    refine ⟨s', ?_⟩
    rwa [hlen, List.take_length] at hs'

/-- Three tasks, of which the first, the current one, has stopped itself. -/
def stoppedFirst : List Op :=
  [.taskCreate 0x1000 0 0x200000 0x210000, .utaskCreate 0x2000 64 0x500000 16 0x220000 0x230000,
    .taskCreate 0x3000 0 0x240000 0x250000, .tick 0x300000, .taskStop 1]

theorem round_robin_stoppedFirst :
    ∃ s, Run step Permitted (start (fun _ => noTask) fun _ => 0) stoppedFirst s ∧
      (s.current, s.next s.current, (s.task s.current).state) = (0x200000, 0x220000, .zombie) ∧
      (serve s [0x300100, 0x300200, 0x300300]).map Prod.fst =
        some [0x220000, 0x240000, initTask] ∧
      ∃ n, pickNext s = some (some n) ∧ (s.task n).state ≠ .zombie := by
  have hexec : (exec step Permitted (start (fun _ => noTask) fun _ => 0) stoppedFirst).map
      (fun s => ((s.current, s.next s.current, (s.task s.current).state),
        (serve s [0x300100, 0x300200, 0x300300]).map Prod.fst)) =
      some ((0x200000, 0x220000, .zombie), some [0x220000, 0x240000, initTask]) := by
    decide +kernel
  obtain ⟨s, hs, hval⟩ := Option.map_eq_some_iff.mp hexec
  obtain ⟨hcur, hserve⟩ := Prod.mk.inj hval
  have h0 : s.current ≠ 0 := by
    rw [(Prod.mk.inj hcur).1]
    decide
  exact ⟨s, Run.of_exec hs, hcur, hserve,
    (round_robin (fun _ => noTask) (fun _ => 0) (Run.of_exec hs) h0).1⟩

end KernelC.Multitask
