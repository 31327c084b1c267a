import KernelC.Multitask.Basic
import Mathlib.Data.List.Perm.Subperm

/-!
# The task ring and the zombie list

The invariant of the scheduler in four parts, over the list `l` of the tasks in
the ring and the list `z` of the zombies that wait to be reaped.

* `Lists`: the two lists are linked, `init_task` is in the ring and no zombie,
  and exactly the zombies have state `TASK_ZOMBIE`.
* `Owned`: the records and stacks of the tasks are blocks of the heap, all
  different from each other.
* `Fates`: the lists hold the tasks that they should by what happened to each.
* `Current`: the current task.

Results: what each list operation does to them.
-/

namespace KernelC.Multitask

theorem initTask_ne_zero : initTask ≠ 0 := by decide

/-! ## The parts of the invariant -/

structure Lists (s : Sched) (head : Nat) (l z : List Nat) : Prop where
  ring : Ring s.next s.taskRing l
  zombies : Path s.znext head z 0
  init : initTask ∈ l
  initLive : initTask ∉ z
  ready : ∀ a ∈ l, a ∉ z → runnable s a = true
  ended : ∀ a ∈ z, (s.task a).state = .zombie

structure Owned (s : Sched) (M : List Nat) : Prop where
  nonnull : ∀ a ∈ M, a ≠ 0
  bounded : ∀ a ∈ M, a < 2 ^ 64
  record : ∀ a ∈ M, a ≠ initTask → a ∈ s.alloc
  stack : ∀ a ∈ M, a ≠ initTask → (s.task a).kstack ∈ s.alloc
  stackApart : ∀ a ∈ M, a ≠ initTask → ∀ b ∈ M, b ≠ initTask → (s.task a).kstack ≠ b
  stackInj : ∀ a ∈ M, a ≠ initTask → ∀ b ∈ M, b ≠ initTask →
    (s.task a).kstack = (s.task b).kstack → a = b
  uidInit : (s.task initTask).uid = 0
  uidInj : ∀ a ∈ M, ∀ b ∈ M, (s.task a).uid = (s.task b).uid → a = b
  uidLe : ∀ a ∈ M, (s.task a).uid ≤ s.created

/-- What has become of a task, read off the lists. -/
def fateOf (l z : List Nat) (a : Nat) : Fate :=
  if a ∈ z then if a ∈ l then .exited else .selfStopped else .live

/-- The fates of a task that is in one of the lists. -/
def Present (f : Fate) : Prop := f = .live ∨ f = .exited ∨ f = .selfStopped

structure Fates (s : Sched) (l z : List Nat) : Prop where
  known : ∀ a ∈ l ++ z, s.fate (s.task a).uid = fateOf l z a
  complete : ∀ u, Present (s.fate u) → ∃ a ∈ l ++ z, (s.task a).uid = u
  absent : ∀ u, s.created < u → s.fate u = .absent
  freed : ∀ e ∈ s.freed, s.fate e.uid = .stopped ∨ s.fate e.uid = .reaped
  once : (s.freed.map FreeCall.uid).Nodup
  notCurrent : ∀ e ∈ s.freed, e.wasCurrent = false

def Current (s : Sched) (l z : List Nat) : Prop :=
  s.current = 0 ∨ s.current ∈ l ∨ (s.current ∈ z ∧ s.next s.current ∈ l)

theorem fateOf_congr {l z l' z' : List Nat} {a : Nat} (hl : a ∈ l' ↔ a ∈ l) (hz : a ∈ z' ↔ a ∈ z) :
    fateOf l' z' a = fateOf l z a := by
  unfold fateOf
  simp only [hl, hz]

theorem fateOf_present (l z : List Nat) (a : Nat) : Present (fateOf l z a) := by
  unfold fateOf Present
  split
  · split <;> simp
  · simp

/-! ## Bounds -/

theorem length_le_of_bounded {l : List Nat} {n : Nat} (hd : l.Nodup) (h : ∀ a ∈ l, a < n) :
    l.length ≤ n := by
  have hsub : l ⊆ List.range n := fun a ha => List.mem_range.mpr (h a ha)
  have hlen := (List.subperm_of_subset hd hsub).length_le
  rwa [List.length_range] at hlen

variable {s s' : Sched} {head : Nat} {l z l' z' M M' : List Nat} {t : Nat}

theorem Owned.length_le (h : Owned s (l ++ z)) (hd : l.Nodup) : l.length ≤ 2 ^ 64 :=
  length_le_of_bounded hd fun a ha => h.bounded a (List.mem_append_left _ ha)

/-- The zombie list ends in NULL, so no task is in it twice. -/
theorem Lists.zombies_nodup (h : Lists s head l z) (ho : Owned s (l ++ z)) : z.Nodup :=
  h.zombies.nodup fun h0 => ho.nonnull 0 (List.mem_append_right _ h0) rfl

/-! ## What an operation leaves alone -/

theorem modify_self (s : Sched) (a : Nat) (g : Task → Task) :
    (s.modify a g).task a = g (s.task a) := by
  simp [Sched.modify]

theorem modify_of_ne (s : Sched) {a b : Nat} (g : Task → Task) (h : b ≠ a) :
    (s.modify a g).task b = s.task b := by
  simp [Sched.modify, Function.update_of_ne h]

/-- A field that the change of a record keeps is the same everywhere. -/
theorem modify_field {β : Type} (f : Task → β) {a : Nat} {g : Task → Task}
    (hf : f (g (s.task a)) = f (s.task a)) (b : Nat) : f ((s.modify a g).task b) = f (s.task b) := by
  by_cases hb : b = a
  · rw [hb, modify_self]
    exact hf
  · rw [modify_of_ne s g hb]

theorem Owned.congr (h : Owned s M) (hsub : ∀ a ∈ M', a ∈ M)
    (huid : ∀ a, (s'.task a).uid = (s.task a).uid)
    (hk : ∀ a, a ≠ initTask → (s'.task a).kstack = (s.task a).kstack) (halloc : s'.alloc = s.alloc)
    (hcreated : s'.created = s.created) : Owned s' M' := by
  refine ⟨fun a ha => h.nonnull a (hsub a ha), fun a ha => h.bounded a (hsub a ha),
    fun a ha hai => ?_, fun a ha hai => ?_, fun a ha hai b hb hbi => ?_,
    fun a ha hai b hb hbi hab => ?_, ?_, fun a ha b hb hab => ?_, fun a ha => ?_⟩
  · rw [halloc]
    exact h.record a (hsub a ha) hai
  · rw [halloc, hk a hai]
    exact h.stack a (hsub a ha) hai
  · rw [hk a hai]
    exact h.stackApart a (hsub a ha) hai b (hsub b hb) hbi
  · rw [hk a hai, hk b hbi] at hab
    exact h.stackInj a (hsub a ha) hai b (hsub b hb) hbi hab
  · rw [huid]
    exact h.uidInit
  · rw [huid, huid] at hab
    exact h.uidInj a (hsub a ha) b (hsub b hb) hab
  · rw [huid, hcreated]
    exact h.uidLe a (hsub a ha)

/-- Everything but the ring is as it was. -/
structure OnlyRing (s s' : Sched) : Prop where
  record : ∀ a, s'.task a = { s.task a with next := (s'.task a).next }
  stack : s'.stack = s.stack
  current : s'.current = s.current
  nextPid : s'.nextPid = s.nextPid
  zombieList : s'.zombieList = s.zombieList
  alloc : s'.alloc = s.alloc
  created : s'.created = s.created
  fate : s'.fate = s.fate
  freed : s'.freed = s.freed

theorem OnlyRing.refl (s : Sched) : OnlyRing s s :=
  ⟨fun _ => rfl, rfl, rfl, rfl, rfl, rfl, rfl, rfl, rfl⟩

namespace OnlyRing

theorem uid (h : OnlyRing s s') (a : Nat) : (s'.task a).uid = (s.task a).uid := by
  rw [h.record a]

theorem state (h : OnlyRing s s') (a : Nat) : (s'.task a).state = (s.task a).state := by
  rw [h.record a]

theorem kstack (h : OnlyRing s s') (a : Nat) : (s'.task a).kstack = (s.task a).kstack := by
  rw [h.record a]

theorem pid (h : OnlyRing s s') (a : Nat) : (s'.task a).pid = (s.task a).pid := by
  rw [h.record a]

theorem znext (h : OnlyRing s s') : s'.znext = s.znext := by
  funext a
  unfold Sched.znext
  rw [h.record a]

theorem runnable (h : OnlyRing s s') (a : Nat) : runnable s' a = runnable s a := by
  unfold Multitask.runnable
  rw [h.state a]

end OnlyRing

/-! ## `unlink_from_ring` -/

theorem setNext_next (s : Sched) (a v : Nat) : (s.setNext a v).next = Function.update s.next a v := by
  funext x
  unfold Sched.setNext Sched.modify Sched.next
  by_cases hx : x = a
  · subst hx
    simp
  · simp [Function.update_of_ne hx]

theorem setNext_onlyRing (s : Sched) (a v : Nat) : OnlyRing s (s.setNext a v) := by
  refine ⟨fun x => ?_, rfl, rfl, rfl, rfl, rfl, rfl, rfl, rfl⟩
  unfold Sched.setNext Sched.modify
  by_cases hx : x = a
  · subst hx
    simp
  · simp [Function.update_of_ne hx]

theorem unlinkAfter_next (s : Sched) (t prev : Nat) :
    (unlinkAfter s t prev).next = Function.update s.next prev (s.next t) :=
  setNext_next s prev (s.next t)

theorem unlinkAfter_onlyRing (s : Sched) (t prev : Nat) : OnlyRing s (unlinkAfter s t prev) := by
  have h := setNext_onlyRing s prev (s.next t)
  exact ⟨h.record, h.stack, h.current, h.nextPid, h.zombieList, h.alloc, h.created, h.fate, h.freed⟩

/-- A task in the ring is taken out; one that is not there changes nothing. -/
theorem unlinkFromRing_spec (h : Ring s.next s.taskRing l) (hlen : l.length ≤ 2 ^ 64)
    (h0 : 0 ∉ l) (hinit : initTask ∈ l) (ht0 : t ≠ 0) (ht : t ≠ initTask) :
    ∃ s' r, unlinkFromRing s t = some (s', r) ∧ Ring s'.next s'.taskRing (l.erase t) ∧
      OnlyRing s s' ∧ s'.next t = s.next t := by
  have hring0 : s.taskRing ≠ 0 := fun he => h0 (he ▸ h.tail_mem)
  unfold unlinkFromRing
  rw [if_neg (by simp [hring0, ht0])]
  have hstart := h.start_notMem
  by_cases hmem : t ∈ l
  · obtain ⟨a, b, rfl, hta⟩ := List.eq_append_cons_of_mem hmem
    have herase : (a ++ t :: b).erase t = a ++ b := by
      rw [List.erase_append_right _ hta, List.erase_cons_head]
    have hrest : initTask ∈ a ++ b := by
      simp only [List.mem_append, List.mem_cons] at hinit ⊢
      exact hinit.imp_right fun hi => hi.resolve_left (Ne.symm ht)
    have hne : s.next s.taskRing ≠ s.taskRing := by
      intro hself
      have hone := h.eq_singleton hself
      rw [hone, List.mem_singleton] at hinit hmem
      exact ht (hmem.trans hinit.symm)
    have hprev := h.prevOf_ne (List.ne_nil_of_mem hrest)
    have hloop : ringPrev s.next t (s.next s.taskRing) (2 ^ 64) s.taskRing (s.next s.taskRing) =
        some (some (prevOf s.taskRing a)) := by
      refine ringPrev_mem h.path hstart hta ?_
      simp only [List.length_append, List.length_cons] at hlen
      omega
    have hrem := h.remove (List.ne_nil_of_mem hrest)
    rw [if_neg hne]
    dsimp only
    rw [hloop, herase]
    refine ⟨unlinkAfter s t (prevOf s.taskRing a), 0, rfl, ?_, unlinkAfter_onlyRing _ _ _, ?_⟩
    · rw [unlinkAfter_next]
      simp only [eq_comm (a := t)] at hrem
      exact hrem
    · rw [unlinkAfter_next, Function.update_of_ne (Ne.symm hprev)]
  · rw [List.erase_of_not_mem hmem]
    refine ⟨s, -1, ?_, h, OnlyRing.refl s, rfl⟩
    by_cases hself : s.next s.taskRing = s.taskRing
    · have htail : s.taskRing ≠ t := fun he => hmem (by rw [← he]; exact h.tail_mem)
      rw [if_pos hself, if_neg htail]
    · obtain ⟨x, r, rfl⟩ := List.exists_cons_of_ne_nil (List.ne_nil_of_mem hinit)
      have hloop : ringPrev s.next t (s.next s.taskRing) (2 ^ 64) s.taskRing (s.next s.taskRing) =
          some none := by
        obtain ⟨hx, hr⟩ := h.path
        rw [List.length_cons] at hlen
        rw [hx] at hstart hr ⊢
        exact ringPrev_of_notMem ⟨rfl, hr⟩ hstart hmem (by omega)
      rw [if_neg hself]
      dsimp only
      rw [hloop]
      rfl

/-- Whatever it finds, `unlink_from_ring` changes the ring only. -/
theorem unlinkFromRing_onlyRing {r : Int} (h : unlinkFromRing s t = some (s', r)) :
    OnlyRing s s' := by
  unfold unlinkFromRing at h
  split at h
  · cases h
    exact OnlyRing.refl s
  · split at h
    · split at h
      · split at h
        · cases h
          exact OnlyRing.refl s
        · cases h
          have hset := setNext_onlyRing s initTask initTask
          exact ⟨hset.record, rfl, rfl, rfl, rfl, rfl, rfl, rfl, rfl⟩
      · cases h
        exact OnlyRing.refl s
    · obtain ⟨found, -, hfound⟩ := Option.map_eq_some_iff.mp h
      cases found with
      | none =>
        cases hfound
        exact OnlyRing.refl s
      | some prev =>
        cases hfound
        exact unlinkAfter_onlyRing s t prev

/-! ## `free_task_resources` -/

/-- What `free_task_resources` changes, for a task other than `init_task`. -/
structure Released (s s' : Sched) (t : Nat) (f : Fate) : Prop where
  record : ∀ a, s'.task a = { s.task a with
    userMem := (s'.task a).userMem, userMemSize := (s'.task a).userMemSize }
  taskRing : s'.taskRing = s.taskRing
  current : s'.current = s.current
  nextPid : s'.nextPid = s.nextPid
  zombieList : s'.zombieList = s.zombieList
  created : s'.created = s.created
  alloc : ∀ a, a ∈ s.alloc → a ≠ t → a ≠ (s.task t).kstack → a ∈ s'.alloc
  fate : s'.fate = Function.update s.fate (s.task t).uid f
  freed : s'.freed = ⟨(s.task t).uid, decide (t = s.current)⟩ :: s.freed

theorem freeTaskResources_spec (s : Sched) (ht0 : t ≠ 0) (ht : t ≠ initTask) (f : Fate) :
    Released s (freeTaskResources s t f) t f := by
  unfold freeTaskResources
  rw [if_neg (by simp [ht0, ht])]
  refine ⟨fun a => ?_, rfl, rfl, rfl, rfl, rfl, fun a ha hat hak => ?_, rfl, rfl⟩
  · dsimp only
    split
    · by_cases hx : a = t
      · subst hx
        simp
      · simp [Function.update_of_ne hx]
    · rfl
  · dsimp only
    rw [Finset.mem_erase]
    refine ⟨hat, ?_⟩
    split
    · exact Finset.mem_erase.mpr ⟨hak, ha⟩
    · exact ha

namespace Released

variable {f : Fate}

theorem uid (h : Released s s' t f) (a : Nat) : (s'.task a).uid = (s.task a).uid := by
  rw [h.record a]

theorem state (h : Released s s' t f) (a : Nat) : (s'.task a).state = (s.task a).state := by
  rw [h.record a]

theorem kstack (h : Released s s' t f) (a : Nat) : (s'.task a).kstack = (s.task a).kstack := by
  rw [h.record a]

theorem pid (h : Released s s' t f) (a : Nat) : (s'.task a).pid = (s.task a).pid := by
  rw [h.record a]

theorem next (h : Released s s' t f) : s'.next = s.next := by
  funext a
  unfold Sched.next
  rw [h.record a]

theorem znext (h : Released s s' t f) : s'.znext = s.znext := by
  funext a
  unfold Sched.znext
  rw [h.record a]

end Released

/-! ## A task is taken out and freed -/

/-- The task `t` leaves the ring and is freed: the reaper's work on a zombie, and
what `task_stop` does with another task. -/
structure Removed (s s' : Sched) (l : List Nat) (t : Nat) (f : Fate) : Prop where
  ring : Ring s'.next s'.taskRing (l.erase t)
  uid : ∀ a, (s'.task a).uid = (s.task a).uid
  state : ∀ a, (s'.task a).state = (s.task a).state
  kstack : ∀ a, (s'.task a).kstack = (s.task a).kstack
  pid : ∀ a, (s'.task a).pid = (s.task a).pid
  znext : s'.znext = s.znext
  current : s'.current = s.current
  nextPid : s'.nextPid = s.nextPid
  zombieList : s'.zombieList = s.zombieList
  created : s'.created = s.created
  alloc : ∀ a, a ∈ s.alloc → a ≠ t → a ≠ (s.task t).kstack → a ∈ s'.alloc
  fate : s'.fate = Function.update s.fate (s.task t).uid f
  freed : s'.freed = ⟨(s.task t).uid, decide (t = s.current)⟩ :: s.freed

theorem removed_of_unlink {u : Sched} {f : Fate} (hr : Ring u.next u.taskRing (l.erase t))
    (hu : OnlyRing s u) (hf : Released u s' t f) : Removed s s' l t f := by
  refine ⟨?_, fun a => (hf.uid a).trans (hu.uid a), fun a => (hf.state a).trans (hu.state a),
    fun a => (hf.kstack a).trans (hu.kstack a), fun a => (hf.pid a).trans (hu.pid a),
    hf.znext.trans hu.znext, hf.current.trans hu.current, hf.nextPid.trans hu.nextPid,
    hf.zombieList.trans hu.zombieList, hf.created.trans hu.created, fun a ha hat hak => ?_, ?_, ?_⟩
  · rw [hf.next, hf.taskRing]
    exact hr
  · refine hf.alloc a ?_ hat ?_
    · rw [hu.alloc]
      exact ha
    · rw [hu.kstack]
      exact hak
  · rw [hf.fate, hu.fate, hu.uid]
  · rw [hf.freed, hu.freed, hu.uid, hu.current]

/-- Unlinking a task and freeing it, where the ring is well formed. -/
theorem unlink_free_spec (h : Ring s.next s.taskRing l) (ho : Owned s (l ++ z))
    (hinit : initTask ∈ l) (ht0 : t ≠ 0) (ht : t ≠ initTask) (f : Fate) :
    ∃ u r, unlinkFromRing s t = some (u, r) ∧ Removed s (freeTaskResources u t f) l t f := by
  obtain ⟨u, r, hret, hring, hu, -⟩ := unlinkFromRing_spec h (ho.length_le h.nodup)
    (fun h0 => ho.nonnull 0 (List.mem_append_left _ h0) rfl) hinit ht0 ht
  exact ⟨u, r, hret, removed_of_unlink hring hu (freeTaskResources_spec u ht0 ht f)⟩

namespace Removed

variable {f : Fate}

theorem owned (h : Removed s s' l t f) (ho : Owned s M) (htM : t ∈ M) (ht : t ≠ initTask)
    (hsub : ∀ a ∈ M', a ∈ M ∧ a ≠ t) : Owned s' M' := by
  refine ⟨fun a ha => ho.nonnull a (hsub a ha).1, fun a ha => ho.bounded a (hsub a ha).1,
    fun a ha hai => ?_, fun a ha hai => ?_, fun a ha hai b hb hbi => ?_,
    fun a ha hai b hb hbi hab => ?_, ?_, fun a ha b hb hab => ?_, fun a ha => ?_⟩
  · exact h.alloc a (ho.record a (hsub a ha).1 hai) (hsub a ha).2
      (Ne.symm (ho.stackApart t htM ht a (hsub a ha).1 hai))
  · rw [h.kstack]
    refine h.alloc _ (ho.stack a (hsub a ha).1 hai) (ho.stackApart a (hsub a ha).1 hai t htM ht)
      fun heq => (hsub a ha).2 (ho.stackInj a (hsub a ha).1 hai t htM ht heq)
  · rw [h.kstack]
    exact ho.stackApart a (hsub a ha).1 hai b (hsub b hb).1 hbi
  · rw [h.kstack, h.kstack] at hab
    exact ho.stackInj a (hsub a ha).1 hai b (hsub b hb).1 hbi hab
  · rw [h.uid]
    exact ho.uidInit
  · rw [h.uid, h.uid] at hab
    exact ho.uidInj a (hsub a ha).1 b (hsub b hb).1 hab
  · rw [h.uid, h.created]
    exact ho.uidLe a (hsub a ha).1

/-- The history after the removal: the task was in a list, is in none now, and
was not the current one. -/
theorem fates (h : Removed s s' l t f) (hF : Fates s l z) (ho : Owned s (l ++ z))
    (htM : t ∈ l ++ z) (hf : f = .stopped ∨ f = .reaped) (hcur : t ≠ s.current)
    (hl : ∀ a, a ∈ l' ↔ a ∈ l ∧ a ≠ t) (hz : ∀ a, a ∈ z' ↔ a ∈ z ∧ a ≠ t) :
    Fates s' l' z' := by
  have hmem : ∀ a, a ∈ l' ++ z' ↔ a ∈ l ++ z ∧ a ≠ t := by
    intro a
    simp only [List.mem_append, hl, hz]
    tauto
  have hne : ∀ a ∈ l' ++ z', (s.task a).uid ≠ (s.task t).uid := by
    intro a ha heq
    exact ((hmem a).mp ha).2 (ho.uidInj a ((hmem a).mp ha).1 t htM heq)
  have hpres : ∀ u, Present (Function.update s.fate (s.task t).uid f u) →
      u ≠ (s.task t).uid ∧ Present (s.fate u) := by
    intro u hu
    by_cases hut : u = (s.task t).uid
    · subst hut
      rw [Function.update_self] at hu
      rcases hf with rfl | rfl <;> simp [Present] at hu
    · rw [Function.update_of_ne hut] at hu
      exact ⟨hut, hu⟩
  refine ⟨fun a ha => ?_, fun u hu => ?_, fun u hu => ?_, fun e he => ?_, ?_, fun e he => ?_⟩
  · rw [h.fate, h.uid, Function.update_of_ne (hne a ha), hF.known a ((hmem a).mp ha).1]
    have hat := ((hmem a).mp ha).2
    exact (fateOf_congr (by simp [hl, hat]) (by simp [hz, hat])).symm
  · rw [h.fate] at hu
    obtain ⟨hut, hpre⟩ := hpres u hu
    obtain ⟨a, ha, rfl⟩ := hF.complete u hpre
    refine ⟨a, (hmem a).mpr ⟨ha, fun he => hut (by rw [he])⟩, h.uid a⟩
  · rw [h.created] at hu
    have hle := ho.uidLe t htM
    rw [h.fate, Function.update_of_ne (by omega)]
    exact hF.absent u hu
  · rw [h.freed] at he
    rw [h.fate]
    by_cases heu : e.uid = (s.task t).uid
    · rw [heu, Function.update_self]
      exact hf
    · rw [Function.update_of_ne heu]
      rcases List.mem_cons.mp he with rfl | he
      · exact absurd rfl heu
      · exact hF.freed e he
  · -- a task that is in a list was not freed before
    rw [h.freed, List.map_cons, List.nodup_cons]
    refine ⟨fun hm => ?_, hF.once⟩
    obtain ⟨e, he, heu⟩ := List.mem_map.mp hm
    have hfreed := hF.freed e he
    have hpres := fateOf_present l z t
    rw [← hF.known t htM] at hpres
    rw [heu] at hfreed
    rcases hfreed with hx | hx <;> rw [hx] at hpres <;> simp [Present] at hpres
  · rw [h.freed] at he
    rcases List.mem_cons.mp he with rfl | he
    · simp [hcur]
    · exact hF.notCurrent e he

end Removed

end KernelC.Multitask
