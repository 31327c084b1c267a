import KernelC.Multitask.Preempt
import Mathlib.Logic.Relation

/-!
# A call without a tick is the whole call

The statements of `Preempt` and the functions of `Basic` are two readings of the
same code. `call_uninterrupted`: where the whole call returns, its statements, run
without a tick, reach the same state.

`Leads` is the run of one task's statements. There is one lemma for each loop, by
induction on the rounds it takes, and one for each function.
-/

namespace KernelC.Multitask.Preempt

/-- One statement of a task. -/
def Follows (x y : Sched × Pc) : Prop := ∃ e, stmt x.1 x.2 = some e ∧ y = (e.sched, e.pc)

/-- The statements of a task take it from `x` to `y`. -/
def Leads (x y : Sched × Pc) : Prop := Relation.ReflTransGen Follows x y

variable {s s' : Sched} {x y : Sched × Pc} {pc : Pc} {e : Effect} {t : Nat} {own : Bool}

theorem Leads.refl : Leads x x := Relation.ReflTransGen.refl

theorem Leads.trans {w : Sched × Pc} (h : Leads x y) (h' : Leads y w) : Leads x w :=
  Relation.ReflTransGen.trans h h'

theorem Leads.head (he : stmt s pc = some e) (h : Leads (e.sched, e.pc) y) : Leads (s, pc) y :=
  Relation.ReflTransGen.head ⟨e, he, rfl⟩ h

/-! ## Freeing and reaping -/

theorem leads_free (s : Sched) (t : Nat) (r : Rest) :
    Leads (s, .freeStack t r) (freeTaskResources s t r.fate, r.pc) := by
  by_cases ht : t = 0 ∨ t = initTask
  · have hstmt : stmt s (.freeStack t r) = some ⟨[], [], freeCall s t, r.pc⟩ := by
      rw [stmt, if_pos ht]
    have hwhole : freeTaskResources s t r.fate = freeCall s t := by
      unfold freeTaskResources
      rw [if_pos ht]
      rfl
    rw [hwhole]
    exact Leads.head hstmt Leads.refl
  · have hstmt : stmt s (.freeStack t r) =
        some ⟨[], [], freeStack (freeCall s t) t, .freeUser t r⟩ := by
      rw [stmt, if_neg ht]
    have hwhole : freeTaskResources s t r.fate =
        freeRecord (freeUser (freeStack (freeCall s t) t) t) t r.fate := by
      have huid : ((freeUser (freeStack (freeCall s t) t) t).task t).uid = (s.task t).uid := by
        unfold freeUser
        dsimp only
        split
        · rw [Function.update_self]
          rfl
        · rfl
      unfold freeTaskResources freeRecord
      rw [if_neg ht, huid]
      rfl
    rw [hwhole]
    exact Leads.head hstmt (Leads.head rfl (Leads.head rfl Leads.refl))

theorem leads_reapLoop {k : Nat} {z : Nat} {next : After} (h : reapLoop k s z = some s') :
    Leads (s, .reapLoop z next) (s', next.pc) := by
  induction k generalizing s z with
  | zero => cases h
  | succ k ih =>
    rw [reapLoop] at h
    split at h
    · next hz =>
      obtain rfl := Option.some.inj h
      have hstmt : stmt s (.reapLoop z next) = some (goes s [] next.pc) := by
        rw [stmt, if_pos hz]
      exact Leads.head hstmt Leads.refl
    · next hz =>
      obtain ⟨r, hunlink, hrest⟩ := Option.bind_eq_some_iff.mp h
      have hread : stmt s (.reapLoop z next) =
          some (goes s [z] (.reapUnlink z (s.znext z) next)) := by
        rw [stmt, if_neg hz]
      have htake : stmt s (.reapUnlink z (s.znext z) next) =
          some ⟨unlinkReads s z, [], r.1, .freeStack z (.reap (s.znext z) next)⟩ := by
        rw [stmt, hunlink, Option.map_some]
      exact Leads.head hread (Leads.head htake ((leads_free _ _ _).trans (ih hrest)))

theorem leads_reap (next : After) (h : reapZombiesInternal s = some s') :
    Leads (s, .reapStart next) (s', next.pc) :=
  Leads.head rfl (leads_reapLoop h)

/-! ## The walks of `task_stop` -/

/-- Where the search ends. -/
def searched : Option Nat → Pc
  | none => .idle
  | some found => .stopFound found

theorem leads_search {k it : Nat} {pid : StopPid} {found : Option Nat}
    (h : ringFind s.next (fun a => (s.task a).pid = pid) (s.next s.taskRing) k it = some found) :
    Leads (s, .stopTest pid it) (s, searched found) := by
  induction k generalizing it with
  | zero => cases h
  | succ k ih =>
    rw [ringFind] at h
    by_cases hpid : (s.task it).pid = pid
    · rw [if_pos (by simpa using hpid)] at h
      obtain rfl := Option.some.inj h
      have hstmt : stmt s (.stopTest pid it) = some (goes s [it] (.stopFound it)) := by
        rw [stmt, if_pos hpid]
      exact Leads.head hstmt Leads.refl
    · rw [if_neg (by simpa using hpid)] at h
      have hstmt : stmt s (.stopTest pid it) = some (goes s [it] (.stopNext pid it)) := by
        rw [stmt, if_neg hpid]
      refine Leads.head hstmt (Leads.head rfl ?_)
      split at h
      · next hend =>
        obtain rfl := Option.some.inj h
        have hback : stmt s (.stopCompare pid (s.next it)) = some (goes s [s.taskRing] .idle) := by
          rw [stmt, if_pos hend]
        exact Leads.head hback Leads.refl
      · next hend =>
        have hgo : stmt s (.stopCompare pid (s.next it)) =
            some (goes s [s.taskRing] (.stopTest pid (s.next it))) := by
          rw [stmt, if_neg hend]
        exact Leads.head hgo (ih h)

/-- The state after the walk of `unlink_from_ring`. -/
def taken (s : Sched) (t : Nat) : Option Nat → Sched
  | none => s
  | some prev => unlinkAfter s t prev

theorem leads_unlinkTest {k prev it : Nat} {found : Option Nat}
    (h : ringPrev s.next t (s.next s.taskRing) k prev it = some found) :
    Leads (s, .unlinkTest t prev it own) (taken s t found, unlinked t own) := by
  induction k generalizing prev it with
  | zero => cases h
  | succ k ih =>
    rw [ringPrev] at h
    split at h
    · next hit =>
      obtain rfl := Option.some.inj h
      subst hit
      have hstmt : stmt s (.unlinkTest it prev it own) = some (goes s [] (.unlinkSet it prev it own)) := by
        rw [stmt, if_pos rfl]
      exact Leads.head hstmt (Leads.head rfl (Leads.head rfl Leads.refl))
    · next hit =>
      have hstmt : stmt s (.unlinkTest t prev it own) = some (goes s [] (.unlinkNext t it own)) := by
        rw [stmt, if_neg hit]
      refine Leads.head hstmt (Leads.head rfl ?_)
      split at h
      · next hend =>
        obtain rfl := Option.some.inj h
        have hback : stmt s (.unlinkCompare t it (s.next it) own) =
            some (goes s [s.taskRing] (unlinked t own)) := by
          rw [stmt, if_pos hend]
        exact Leads.head hback Leads.refl
      · next hend =>
        have hgo : stmt s (.unlinkCompare t it (s.next it) own) =
            some (goes s [s.taskRing] (.unlinkTest t it (s.next it) own)) := by
          rw [stmt, if_neg hend]
        exact Leads.head hgo (ih h)

theorem leads_unlinkOne {r : Int} (hring : ¬ (s.taskRing = 0 ∨ t = 0))
    (h : unlinkFromRing s t = some (s', r)) : Leads (s, .unlinkOne t own) (s', unlinked t own) := by
  unfold unlinkFromRing at h
  rw [if_neg hring] at h
  by_cases hone : s.next s.taskRing = s.taskRing
  · rw [if_pos hone] at h
    by_cases hself : s.taskRing = t ∧ initTask ≠ t
    · rw [if_pos hself.1, if_neg hself.2] at h
      obtain ⟨rfl, -⟩ := Prod.mk.inj (Option.some.inj h)
      have hstmt : stmt s (.unlinkOne t own) = some ⟨[s.taskRing], [],
          { s with taskRing := initTask }.setNext initTask initTask, unlinked t own⟩ := by
        rw [stmt, if_pos hone, if_pos hself]
      exact Leads.head hstmt Leads.refl
    · have hs : s = s' := by
        split at h
        · next ht =>
          have hinit : initTask = t := not_not.mp fun hn => hself ⟨ht, hn⟩
          rw [if_pos hinit] at h
          exact (Prod.mk.inj (Option.some.inj h)).1
        · exact (Prod.mk.inj (Option.some.inj h)).1
      subst hs
      have hstmt : stmt s (.unlinkOne t own) = some (goes s [s.taskRing] (unlinked t own)) := by
        rw [stmt, if_pos hone, if_neg hself]
      exact Leads.head hstmt Leads.refl
  · rw [if_neg hone] at h
    obtain ⟨found, hfound, hs⟩ := Option.map_eq_some_iff.mp h
    have hs' : s' = taken s t found := by
      cases found with
      | none => exact (Prod.mk.inj hs).1.symm
      | some prev => exact (Prod.mk.inj hs).1.symm
    have hstmt : stmt s (.unlinkOne t own) = some (goes s [s.taskRing] (.unlinkPrev t own)) := by
      rw [stmt, if_neg hone]
    rw [hs']
    exact Leads.head hstmt (Leads.head rfl (Leads.head rfl (leads_unlinkTest hfound)))

theorem leads_unlink (own : Bool) {r : Int} (h : unlinkFromRing s t = some (s', r)) :
    Leads (s, .unlinkStart t own) (s', unlinked t own) := by
  by_cases hring : s.taskRing = 0 ∨ t = 0
  · have hstmt : stmt s (.unlinkStart t own) = some (goes s [] (unlinked t own)) := by
      rw [stmt, if_pos hring]
    unfold unlinkFromRing at h
    rw [if_pos hring] at h
    obtain ⟨rfl, -⟩ := Prod.mk.inj (Option.some.inj h)
    exact Leads.head hstmt Leads.refl
  · have hstmt : stmt s (.unlinkStart t own) = some (goes s [] (.unlinkOne t own)) := by
      rw [stmt, if_neg hring]
    exact Leads.head hstmt (leads_unlinkOne hring h)

/-! ## The current task ends -/

theorem leads_queue (s : Sched) (f : Ending) :
    Leads (s, .endZnext f) (addToZombieList s s.current, f.pc s) := by
  unfold addToZombieList
  by_cases h0 : s.current = 0
  · have hstmt : stmt s (.endZnext f) = some (goes s [] (f.pc s)) := by
      rw [stmt, if_pos h0]
    rw [if_pos h0]
    exact Leads.head hstmt Leads.refl
  · have hstmt : stmt s (.endZnext f) =
        some ⟨[], [], s.modify s.current fun t => { t with znext := s.zombieList }, .endQueue f⟩ := by
      rw [stmt, if_neg h0]
    have hpc : f.pc (s.modify s.current fun t => { t with znext := s.zombieList }) = f.pc s := by
      cases f with
      | exit => rfl
      | stop => rfl
    rw [if_neg h0, ← hpc]
    exact Leads.head hstmt (Leads.head rfl Leads.refl)

theorem leads_end (s : Sched) (f : Ending) :
    Leads (s, .endState f)
      (endCurrent s (fun t => { t with state := .zombie }) f.fate, f.pc s) := by
  have hpc : f.pc ((s.modify s.current fun t => { t with state := .zombie }).setFate s.current
      f.fate) = f.pc s := by
    cases f with
    | exit => rfl
    | stop => rfl
  rw [← hpc]
  exact Leads.head rfl (leads_queue _ f)

theorem endCurrent_current (s : Sched) (g : Task → Task) (f : Fate) :
    (endCurrent s g f).current = s.current := by
  unfold endCurrent addToZombieList
  split <;> rfl

theorem modify_modify (s : Sched) (a : Nat) (f g : Task → Task) :
    (s.modify a f).modify a g = s.modify a fun t => g (f t) := by
  unfold Sched.modify
  simp

/-- `task_exit` writes the exit code first. -/
theorem leads_exit (s : Sched) (code : Int) :
    Leads (s, .exitCode code)
      (endCurrent s (fun t => { t with exitCode := code, state := .zombie }) .exited, .idle) := by
  have hend := leads_end (s.modify s.current fun t => { t with exitCode := code }) .exit
  have hwhole : endCurrent (s.modify s.current fun t => { t with exitCode := code })
      (fun t => { t with state := .zombie }) Ending.exit.fate =
      endCurrent s (fun t => { t with exitCode := code, state := .zombie }) .exited := by
    unfold endCurrent
    show addToZombieList (Sched.setFate (Sched.modify (s.modify s.current _) s.current _)
      s.current .exited) s.current = _
    rw [modify_modify]
  rw [hwhole] at hend
  exact Leads.head rfl hend

/-! ## The calls -/

/-- The call as a whole. -/
def Call.op : Call → Op
  | .taskStop pid => .taskStop pid
  | .taskExit code => .taskExit code
  | .reapZombies => .reapZombies
  | .taskIsAlive pid => .taskIsAlive pid

/-- The task is back from its call, or waits in `hlt`. -/
def Pc.over : Pc → Bool
  | .idle => true
  | .wait => true
  | _ => false

theorem leads_stop (pid : StopPid) {r : Option Int} (h : taskStop s pid = some (s', r)) :
    ∃ pc, pc.over ∧ Leads (s, .reapStart (.search pid)) (s', pc) := by
  unfold taskStop at h
  rw [if_neg pid.2] at h
  obtain ⟨u, hreap, h⟩ := Option.bind_eq_some_iff.mp h
  have hstart := leads_reap (.search pid) hreap
  by_cases h0 : u.taskRing = 0
  · rw [if_pos h0] at h
    obtain ⟨rfl, -⟩ := Prod.mk.inj (Option.some.inj h)
    have hstmt : stmt u (.stopRing pid) = some (goes u [] .idle) := by
      rw [stmt, if_pos h0]
    exact ⟨.idle, rfl, hstart.trans (Leads.head hstmt Leads.refl)⟩
  rw [if_neg h0] at h
  obtain ⟨found, hfound, h⟩ := Option.bind_eq_some_iff.mp h
  have hstmt : stmt u (.stopRing pid) = some (goes u [] (.stopFirst pid)) := by
    rw [stmt, if_neg h0]
  have hsearch := hstart.trans (Leads.head hstmt (Leads.head rfl (leads_search hfound)))
  cases found with
  | none =>
    obtain ⟨rfl, -⟩ := Prod.mk.inj (Option.some.inj h)
    exact ⟨.idle, rfl, hsearch⟩
  | some a =>
    dsimp only at h
    split at h
    · next hself =>
      -- the task stops itself
      obtain ⟨v, hstop, h⟩ := Option.map_eq_some_iff.mp h
      obtain ⟨rfl, -⟩ := Prod.mk.inj h
      obtain ⟨⟨v', ret⟩, hunlink, rfl⟩ := Option.map_eq_some_iff.mp hstop
      rw [endCurrent_current] at hunlink
      have hfoundSelf : stmt u (.stopFound a) = some (goes u [] (.endState .stop)) := by
        rw [stmt, if_pos hself]
      exact ⟨.wait, rfl, hsearch.trans (Leads.head hfoundSelf
        ((leads_end u .stop).trans (leads_unlink true hunlink)))⟩
    · next hself =>
      obtain ⟨v, hstop, h⟩ := Option.map_eq_some_iff.mp h
      obtain ⟨rfl, -⟩ := Prod.mk.inj h
      obtain ⟨⟨v', ret⟩, hunlink, hreap'⟩ := Option.bind_eq_some_iff.mp hstop
      have hfoundOther : stmt u (.stopFound a) = some (goes u [] (.unlinkStart a false)) := by
        rw [stmt, if_neg hself]
      exact ⟨.idle, rfl, hsearch.trans (Leads.head hfoundOther
        ((leads_unlink false hunlink).trans
          ((leads_free v' a .stop).trans (leads_reap .done hreap'))))⟩

theorem leads_call {o : Call} (h : Multitask.step s o.op = some s') :
    ∃ pc, pc.over ∧ Leads (s, o.entry) (s', pc) := by
  cases o with
  | taskStop pid =>
    obtain ⟨⟨u, r⟩, hstop, rfl⟩ := Option.map_eq_some_iff.mp h
    by_cases hpid : pid = 0
    · rw [taskStop, if_pos hpid] at hstop
      obtain ⟨rfl, -⟩ := Prod.mk.inj (Option.some.inj hstop)
      exact ⟨.idle, rfl, by rw [Call.entry, dif_pos hpid]; exact Leads.refl⟩
    · rw [Call.entry, dif_neg hpid]
      exact leads_stop ⟨pid, hpid⟩ hstop
  | taskExit code =>
    obtain ⟨u, hreap, rfl⟩ := Option.map_eq_some_iff.mp h
    have hstart := leads_reap (.exit code) hreap
    by_cases hcur : u.current = 0 ∨ u.current = initTask
    · have hstmt : stmt u (.exitCheck code) = some (goes u [] .idle) := by
        rw [stmt, if_pos hcur]
      rw [if_pos hcur]
      exact ⟨.idle, rfl, hstart.trans (Leads.head hstmt Leads.refl)⟩
    · have hstmt : stmt u (.exitCheck code) = some (goes u [] (.exitCode code)) := by
        rw [stmt, if_neg hcur]
      rw [if_neg hcur]
      exact ⟨.idle, rfl, hstart.trans (Leads.head hstmt (leads_exit u code))⟩
  | reapZombies => exact ⟨.idle, rfl, leads_reap .done h⟩
  | taskIsAlive pid =>
    obtain ⟨⟨u, r⟩, halive, rfl⟩ := Option.map_eq_some_iff.mp h
    unfold taskIsAlive at halive
    by_cases hpid : pid ≤ 0
    · rw [if_pos hpid] at halive
      obtain ⟨rfl, -⟩ := Prod.mk.inj (Option.some.inj halive)
      exact ⟨.idle, rfl, by rw [Call.entry, if_pos hpid]; exact Leads.refl⟩
    · rw [if_neg hpid] at halive
      obtain ⟨v, hreap, halive⟩ := Option.bind_eq_some_iff.mp halive
      have hu : u = v := by
        split at halive
        · exact (Prod.mk.inj (Option.some.inj halive)).1.symm
        · obtain ⟨found, -, hfound⟩ := Option.map_eq_some_iff.mp halive
          cases found with
          | none => exact (Prod.mk.inj hfound).1.symm
          | some a => exact (Prod.mk.inj hfound).1.symm
      subst hu
      rw [Call.entry, if_neg hpid]
      exact ⟨.idle, rfl, (leads_reap (.alive pid) hreap).trans (Leads.head rfl Leads.refl)⟩

/-! ## In a configuration -/

theorem unlinkFromRing_current {r : Int} (h : unlinkFromRing s t = some (s', r)) :
    s'.current = s.current := by
  unfold unlinkFromRing at h
  split at h
  · rw [← (Prod.mk.inj (Option.some.inj h)).1]
  · split at h
    · split at h
      · split at h
        · rw [← (Prod.mk.inj (Option.some.inj h)).1]
        · rw [← (Prod.mk.inj (Option.some.inj h)).1]
          rfl
      · rw [← (Prod.mk.inj (Option.some.inj h)).1]
    · obtain ⟨found, -, hs⟩ := Option.map_eq_some_iff.mp h
      cases found with
      | none => rw [← (Prod.mk.inj hs).1]
      | some prev =>
        rw [← (Prod.mk.inj hs).1]
        rfl

theorem stmt_current (h : stmt s pc = some e) : e.sched.current = s.current := by
  cases pc with
  | idle => cases h
  | reapLoop | freeStack | endZnext =>
    rw [stmt] at h
    split at h <;> obtain rfl := Option.some.inj h <;> rfl
  | reapUnlink =>
    obtain ⟨r, hr, rfl⟩ := Option.map_eq_some_iff.mp h
    exact unlinkFromRing_current hr
  | unlinkOne =>
    rw [stmt] at h
    split at h
    · split at h <;> obtain rfl := Option.some.inj h <;> rfl
    · obtain rfl := Option.some.inj h
      rfl
  | _ =>
    obtain rfl := Option.some.inj h
    rfl

/-- The statements of the running task, in a configuration. -/
theorem Leads.run (h : Leads x y) :
    ∀ c : Conf, x = (c.sched, c.pc c.sched.running) →
      ∃ n c', Run step Possible c (List.replicate n .advance) c' ∧ c'.sched = y.1 ∧
        c'.pc c.sched.running = y.2 ∧ ∀ a, a ≠ c.sched.running → c'.pc a = c.pc a := by
  induction h using Relation.ReflTransGen.head_induction_on with
  | refl =>
    rintro c rfl
    exact ⟨0, c, .nil c, rfl, rfl, fun _ _ => rfl⟩
  | head hstep _ ih =>
    rintro c rfl
    obtain ⟨e, he, rfl⟩ := hstep
    have hrun : (c.apply e).sched.running = c.sched.running := by
      show e.sched.running = c.sched.running
      unfold Sched.running
      rw [stmt_current he]
    have hpc : (c.apply e).pc c.sched.running = e.pc := Function.update_self _ _ _
    obtain ⟨n, c', hr, hs', hpc', hother⟩ := ih (c.apply e) (by rw [hrun, hpc]; rfl)
    rw [hrun] at hpc' hother
    refine ⟨n + 1, c', .cons trivial ?_ hr, hs', hpc', fun a ha => ?_⟩
    · rw [step, he, Option.map_some]
    · rw [hother a ha]
      exact Function.update_of_ne ha _ _

/-- A call that returns as a whole does the same statement by statement, when no
tick comes; the other tasks stay where they are. -/
theorem call_uninterrupted {c : Conf} {o : Call} (ho : Possible c (.call o))
    (h : Multitask.step c.sched o.op = some s') :
    ∃ n c', Run step Possible c (.call o :: List.replicate n .advance) c' ∧ c'.sched = s' ∧
      (c'.pc c.sched.running).over ∧ ∀ a, a ≠ c.sched.running → c'.pc a = c.pc a := by
  obtain ⟨pc, hover, hleads⟩ := leads_call h
  have hpc : (c.apply (goes c.sched [] o.entry)).pc c.sched.running = o.entry :=
    Function.update_self _ _ _
  obtain ⟨n, c', hr, hs', hpc', hother⟩ := hleads.run (c.apply (goes c.sched [] o.entry)) (by
    show (c.sched, o.entry) = (c.sched, (c.apply (goes c.sched [] o.entry)).pc c.sched.running)
    rw [hpc])
  refine ⟨n, c', .cons ho rfl hr, hs', ?_, fun a ha => ?_⟩
  · show (c'.pc c.sched.running).over
    rw [show c'.pc c.sched.running = pc from hpc']
    exact hover
  · rw [hother a ha]
    exact Function.update_of_ne ha _ _

end KernelC.Multitask.Preempt
