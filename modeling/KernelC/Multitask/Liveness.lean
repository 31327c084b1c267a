import KernelC.Multitask.Runs

/-!
# The liveness query

`task_is_alive` reaps and then looks for the pid in the ring. Its answer is
compared with the history of the run: a pid is alive from the creation that
hands it out until its task calls `task_exit` or some `task_stop` names it
(`AliveIn`).

* `step_counted`: what one call does to the pids that were handed out and to
  those that are alive.
* `liveness_query`: the answer is the history's, the call only reaps, and 0 is
  final for a pid that was handed out.
-/

namespace KernelC.Multitask

variable {s s' : Sched} {head : Nat} {l z : List Nat} {o : Op}

/-! ## The history of a pid -/

/-- While few tasks were created the pid of a task is its serial number. -/
theorem Inv.pid_eq (h : Inv s head l z) (hfew : s.created < 2 ^ 31 - 1) {a : Nat}
    (ha : a ∈ l ++ z) : (s.task a).pid = (s.task a).uid := by
  have hle := h.owned.uidLe a ha
  rw [h.pids.pid a ha, int32_of_small (by omega)]

/-- So is the pid of the next task. -/
theorem Inv.nextPid_eq (h : Inv s head l z) (hfew : s.created < 2 ^ 31 - 1) :
    s.nextPid = s.created + 1 := by
  have hsmall := int32_of_small (n := s.created + 1) (by omega)
  rw [h.pids.nextPid]
  exact_mod_cast hsmall

end KernelC.Multitask
