import KernelC.Multitask.Invariant

/-!
# New tasks

A new task goes to the end of the ring. `Made` says what a creation changes;
with fresh blocks the invariant holds again (`createTask_good`).
-/

namespace KernelC.Multitask

variable {s s' : Sched} {head t : Nat} {l z l' : List Nat}

/-! ## Creation -/

theorem insertTail_spec (h : Ring s.next s.taskRing l) (h0 : s.taskRing ≠ 0) (ht : t ∉ l) :
    Ring (insertTail s t).next (insertTail s t).taskRing (l ++ [t]) ∧
    OnlyRing s (insertTail s t) := by
  have hne : s.taskRing ≠ t := fun he => ht (he ▸ h.tail_mem)
  have hstep := setNext_onlyRing s t (s.next s.taskRing)
  have hstep' := setNext_onlyRing (s.setNext t (s.next s.taskRing)) s.taskRing t
  unfold insertTail
  rw [if_neg h0]
  refine ⟨?_, ?_⟩
  · have hring := h.insert ht
    rw [← setNext_next, ← setNext_next] at hring
    exact hring
  · refine ⟨fun a => ?_, rfl, rfl, rfl, rfl, rfl, rfl, rfl, rfl⟩
    have h1 := hstep.record a
    have h2 := hstep'.record a
    rw [h1] at h2
    exact h2

theorem insertTail_field {β : Type} (f : Task → β) (hf : ∀ r n, f { r with next := n } = f r)
    (s : Sched) (t a : Nat) : f ((insertTail s t).task a) = f (s.task a) := by
  have hset : ∀ (s : Sched) (b v : Nat), f ((s.setNext b v).task a) = f (s.task a) :=
    fun s b v => modify_field f (hf _ _) a
  unfold insertTail
  split
  · exact hset s t t
  · exact (hset _ _ _).trans (hset _ _ _)

/-- The new task is the tail of the ring, with the pid that the call returns. -/
theorem createTask_new (s : Sched) (entry size mem memSize : Nat) {k : Nat} (ht0 : t ≠ 0)
    (hk0 : k ≠ 0) :
    let r := createTask s entry size mem memSize t k
    r.1.taskRing = t ∧ (r.1.task t).pid = r.2 ∧ (r.1.task t).userMem = mem ∧
      (r.1.task t).userMemSize = memSize ∧ (r.1.task t).state = .ready := by
  have htail : ∀ s : Sched, (insertTail s t).taskRing = t := by
    intro s
    unfold insertTail
    split
    · rfl
    · rfl
  unfold createTask
  simp only [if_neg ht0, if_neg hk0, htail, insertTail_field Task.pid (fun _ _ => rfl),
    insertTail_field Task.userMem (fun _ _ => rfl),
    insertTail_field Task.userMemSize (fun _ _ => rfl),
    insertTail_field Task.state (fun _ _ => rfl), Function.update_self, and_self]

/-- A new task `t` with the stack `kstack` at the end of the ring `l`. -/
structure Made (s s' : Sched) (l : List Nat) (t kstack : Nat) : Prop where
  ring : Ring s'.next s'.taskRing (l ++ [t])
  new : (s'.task t).uid = s.created + 1 ∧ (s'.task t).kstack = kstack ∧
    (s'.task t).pid = s.nextPid ∧ runnable s' t = true
  old : ∀ a, a ≠ t → s'.task a = { s.task a with next := (s'.task a).next }
  next : ∀ a, a ∉ l → a ≠ t → s'.next a = s.next a
  current : s'.current = s.current
  zombieList : s'.zombieList = s.zombieList
  nextPid : s'.nextPid = int32 (s.nextPid + 1)
  created : s'.created = s.created + 1
  alloc : s'.alloc = insert kstack (insert t s.alloc)
  fate : s'.fate = Function.update s.fate (s.created + 1) .live
  freed : s'.freed = s.freed

theorem createTask_made (h : Ring s.next s.taskRing l) (h0 : s.taskRing ≠ 0) (ht : t ∉ l)
    (entry size mem memSize : Nat) {kstack : Nat} (ht0 : t ≠ 0) (hk0 : kstack ≠ 0) :
    Made s (createTask s entry size mem memSize t kstack).1 l t kstack := by
  unfold createTask
  simp only [if_neg ht0, if_neg hk0]
  -- the state before the new task is put into the ring
  generalize hu : Sched.mk _ _ _ _ _ _ _ _ _ _ _ = u
  have htask : ∀ a, a ≠ t → u.task a = s.task a := by
    intro a ha
    subst hu
    exact Function.update_of_ne ha _ _
  have hself : (u.task t).uid = s.created + 1 ∧ (u.task t).kstack = kstack ∧
      (u.task t).pid = s.nextPid ∧ (u.task t).state = .ready := by
    subst hu
    simp
  have hring : Ring u.next u.taskRing l := by
    have hag : ∀ x ∈ l, u.next x = s.next x := fun x hx => by
      unfold Sched.next
      rw [htask x fun he => ht (he ▸ hx)]
    have := h.congr hag
    subst hu
    exact this
  have hu0 : u.taskRing ≠ 0 := by
    subst hu
    exact h0
  obtain ⟨hins, honly⟩ := insertTail_spec hring hu0 ht
  have hnext : (insertTail u t).next =
      Function.update (Function.update u.next t (u.next u.taskRing)) u.taskRing t := by
    unfold insertTail
    rw [if_neg hu0, ← setNext_next, ← setNext_next]
    rfl
  refine ⟨hins, ?_, ?_, ?_, ?_, ?_, ?_, ?_, ?_, ?_, ?_⟩
  · refine ⟨(honly.uid t).trans hself.1, (honly.kstack t).trans hself.2.1,
      (honly.pid t).trans hself.2.2.1, ?_⟩
    rw [honly.runnable, runnable, hself.2.2.2]
    rfl
  · intro a ha
    rw [← htask a ha]
    exact honly.record a
  · intro a hal hat
    have hatail : a ≠ u.taskRing := fun he => hal (he ▸ hring.tail_mem)
    rw [hnext, Function.update_of_ne hatail, Function.update_of_ne hat]
    unfold Sched.next
    rw [htask a hat]
  · rw [honly.current, ← hu]
  · rw [honly.zombieList, ← hu]
  · rw [honly.nextPid, ← hu]
  · rw [honly.created, ← hu]
  · rw [honly.alloc, ← hu]
  · rw [honly.fate, ← hu]
  · rw [honly.freed, ← hu]

theorem int32_succ (x : Int) : int32 (int32 x + 1) = int32 (x + 1) := by
  unfold int32
  omega

namespace Made

variable {kstack : Nat}

theorem uid (h : Made s s' l t kstack) {a : Nat} (ha : a ≠ t) :
    (s'.task a).uid = (s.task a).uid := by
  rw [h.old a ha]

theorem mem_cases {a : Nat} (ha : a ∈ (l ++ [t]) ++ z) : a = t ∨ (a ∈ l ++ z ∧ a ≠ t) := by
  by_cases hat : a = t
  · exact .inl hat
  · simp only [List.mem_append, List.mem_singleton] at ha ⊢
    tauto

/-- The new stack is neither a record nor the stack of an old task, and no old
stack is the new record. -/
theorem stack_fresh (ho : Owned s (l ++ z)) (ht0 : t ≠ 0) (hk0 : kstack ≠ 0)
    (hfresh : Fresh s t kstack) {a : Nat} (ha : a ∈ l ++ z) (hai : a ≠ initTask) :
    kstack ≠ a ∧ (s.task a).kstack ≠ t ∧ (s.task a).kstack ≠ kstack := by
  have hta := (hfresh.1 ht0).1
  have hka := (hfresh.2 hk0).1
  have hstack := ho.stack a ha hai
  exact ⟨fun he => hka (he ▸ ho.record a ha hai), fun he => hta (he ▸ hstack),
    fun he => hka (he ▸ hstack)⟩

theorem stackApart (h : Made s s' l t kstack) (ho : Owned s (l ++ z)) (ht0 : t ≠ 0)
    (hk0 : kstack ≠ 0) (hfresh : Fresh s t kstack) {a b : Nat} (ha : a ∈ (l ++ [t]) ++ z)
    (hai : a ≠ initTask) (hb : b ∈ (l ++ [t]) ++ z) (hbi : b ≠ initTask) :
    (s'.task a).kstack ≠ b := by
  rcases mem_cases ha with rfl | ⟨ham, hat⟩
  · rw [h.new.2.1]
    rcases mem_cases hb with rfl | ⟨hbm, -⟩
    · exact (hfresh.2 hk0).2.1
    · exact (stack_fresh ho ht0 hk0 hfresh hbm hbi).1
  · rw [h.old a hat]
    rcases mem_cases hb with rfl | ⟨hbm, -⟩
    · exact (stack_fresh ho ht0 hk0 hfresh ham hai).2.1
    · exact ho.stackApart a ham hai b hbm hbi

theorem stackInj (h : Made s s' l t kstack) (ho : Owned s (l ++ z)) (ht0 : t ≠ 0)
    (hk0 : kstack ≠ 0) (hfresh : Fresh s t kstack) {a b : Nat} (ha : a ∈ (l ++ [t]) ++ z)
    (hai : a ≠ initTask) (hb : b ∈ (l ++ [t]) ++ z) (hbi : b ≠ initTask)
    (hab : (s'.task a).kstack = (s'.task b).kstack) : a = b := by
  have hk : ∀ x, x ≠ t → (s'.task x).kstack = (s.task x).kstack := fun x hx => by rw [h.old x hx]
  rcases mem_cases ha with rfl | ⟨ham, hat⟩
  · rcases mem_cases hb with rfl | ⟨hbm, hbt⟩
    · rfl
    · rw [h.new.2.1, hk b hbt] at hab
      exact absurd hab.symm (stack_fresh ho ht0 hk0 hfresh hbm hbi).2.2
  · rcases mem_cases hb with rfl | ⟨hbm, hbt⟩
    · rw [h.new.2.1, hk a hat] at hab
      exact absurd hab (stack_fresh ho ht0 hk0 hfresh ham hai).2.2
    · rw [hk a hat, hk b hbt] at hab
      exact ho.stackInj a ham hai b hbm hbi hab

theorem uidInj (h : Made s s' l t kstack) (ho : Owned s (l ++ z)) {a b : Nat}
    (ha : a ∈ (l ++ [t]) ++ z) (hb : b ∈ (l ++ [t]) ++ z)
    (hab : (s'.task a).uid = (s'.task b).uid) : a = b := by
  rcases mem_cases ha with rfl | ⟨ham, hat⟩
  · rcases mem_cases hb with rfl | ⟨hbm, hbt⟩
    · rfl
    · rw [h.new.1, h.uid hbt] at hab
      have := ho.uidLe b hbm
      omega
  · rcases mem_cases hb with rfl | ⟨hbm, hbt⟩
    · rw [h.new.1, h.uid hat] at hab
      have := ho.uidLe a ham
      omega
    · rw [h.uid hat, h.uid hbt] at hab
      exact ho.uidInj a ham b hbm hab

theorem owned (h : Made s s' l t kstack) (ho : Owned s (l ++ z)) (ht0 : t ≠ 0) (hk0 : kstack ≠ 0)
    (hfresh : Fresh s t kstack) : Owned s' ((l ++ [t]) ++ z) := by
  obtain ⟨-, hti, htb⟩ := hfresh.1 ht0
  refine ⟨?_, ?_, ?_, ?_, fun a ha hai b hb hbi => h.stackApart ho ht0 hk0 hfresh ha hai hb hbi,
    fun a ha hai b hb hbi => h.stackInj ho ht0 hk0 hfresh ha hai hb hbi, ?_,
    fun a ha b hb => h.uidInj ho ha hb, ?_⟩
  · intro a ha
    rcases mem_cases ha with rfl | ⟨ham, -⟩
    · exact ht0
    · exact ho.nonnull a ham
  · intro a ha
    rcases mem_cases ha with rfl | ⟨ham, -⟩
    · exact htb
    · exact ho.bounded a ham
  · intro a ha hai
    rw [h.alloc]
    rcases mem_cases ha with rfl | ⟨ham, -⟩
    · simp
    · simp [ho.record a ham hai]
  · intro a ha hai
    rw [h.alloc]
    rcases mem_cases ha with rfl | ⟨ham, hat⟩
    · simp [h.new.2.1]
    · rw [h.old a hat]
      simp [ho.stack a ham hai]
  · rw [h.uid (Ne.symm hti)]
    exact ho.uidInit
  · intro a ha
    rw [h.created]
    rcases mem_cases ha with rfl | ⟨ham, hat⟩
    · exact Nat.le_of_eq h.new.1
    · rw [h.uid hat]
      have := ho.uidLe a ham
      omega

theorem fates (h : Made s s' l t kstack) (hF : Fates s l z) (ho : Owned s (l ++ z))
    (ht : t ∉ l ++ z) : Fates s' (l ++ [t]) z := by
  have hne : ∀ a ∈ l ++ z, a ≠ t := fun a ha he => ht (he ▸ ha)
  have hold : ∀ a ∈ l ++ z, (s.task a).uid ≠ s.created + 1 := by
    intro a ha heq
    have := ho.uidLe a ha
    omega
  refine ⟨fun a ha => ?_, fun u hu => ?_, fun u hu => ?_, fun e he => ?_, ?_, ?_⟩
  · rw [h.fate]
    by_cases hat : a = t
    · subst hat
      have haz : a ∉ z := fun hm => ht (List.mem_append_right _ hm)
      rw [h.new.1, Function.update_self, fateOf, if_neg haz]
    · have ham : a ∈ l ++ z := by
        simp only [List.mem_append, List.mem_singleton] at ha ⊢
        tauto
      rw [h.uid hat, Function.update_of_ne (hold a ham), hF.known a ham]
      exact fateOf_congr (by simp [hat]) Iff.rfl
  · rw [h.fate] at hu
    by_cases hut : u = s.created + 1
    · exact ⟨t, by simp, by rw [h.new.1, hut]⟩
    · rw [Function.update_of_ne hut] at hu
      obtain ⟨a, ha, rfl⟩ := hF.complete u hu
      refine ⟨a, ?_, h.uid (hne a ha)⟩
      simp only [List.mem_append] at ha ⊢
      tauto
  · rw [h.created] at hu
    rw [h.fate, Function.update_of_ne (by omega)]
    exact hF.absent u (by omega)
  · rw [h.freed] at he
    have hfreed := hF.freed e he
    have hne' : e.uid ≠ s.created + 1 := by
      intro heq
      rw [heq, hF.absent _ (by omega)] at hfreed
      simp at hfreed
    rw [h.fate, Function.update_of_ne hne']
    exact hfreed
  · rw [h.freed]
    exact hF.once
  · rw [h.freed]
    exact hF.notCurrent

end Made

theorem Inv.create {kstack : Nat} (h : Inv s s.zombieList l z) (hm : Made s s' l t kstack)
    (ht0 : t ≠ 0) (hk0 : kstack ≠ 0) (hfresh : Fresh s t kstack) :
    Inv s' s'.zombieList (l ++ [t]) z := by
  obtain ⟨hta, hti, -⟩ := hfresh.1 ht0
  have ht : t ∉ l ++ z := fun hmem => hta (h.owned.record t hmem hti)
  have htz : t ∉ z := fun hmem => ht (List.mem_append_right _ hmem)
  have hne : ∀ a ∈ z, a ≠ t := fun a ha he => htz (he ▸ ha)
  refine ⟨⟨hm.ring, ?_, ?_, h.lists.initLive, ?_, ?_⟩,
    hm.owned h.owned ht0 hk0 hfresh, hm.fates h.fates h.owned ht, ?_, ?_, ?_⟩
  · rw [hm.zombieList]
    refine h.lists.zombies.congr fun a ha => ?_
    unfold Sched.znext
    rw [hm.old a (hne a ha)]
  · exact List.mem_append_left _ h.lists.init
  · intro a ha haz
    by_cases hat : a = t
    · rw [hat]
      exact hm.new.2.2.2
    · have hal : a ∈ l := by simpa [hat] using ha
      unfold runnable
      rw [hm.old a hat]
      exact h.lists.ready a hal haz
  · intro a ha
    rw [hm.old a (hne a ha)]
    exact h.lists.ended a ha
  · -- the current task is where it was
    unfold Current
    rw [hm.current]
    rcases h.current with h0 | hl | ⟨hz, hnext⟩
    · exact .inl h0
    · exact .inr (.inl (List.mem_append_left _ hl))
    · by_cases hl : s.current ∈ l
      · exact .inr (.inl (List.mem_append_left _ hl))
      · refine .inr (.inr ⟨hz, ?_⟩)
        rw [hm.next _ hl (hne _ hz)]
        exact List.mem_append_left _ hnext
  · intro a ha
    by_cases hat : a = t
    · rw [hat, hm.new.2.2.1, hm.new.1, h.pids.nextPid]
      norm_cast
    · rw [hm.old a hat]
      refine h.pids.pid a ?_
      simp only [List.mem_append, List.mem_singleton] at ha ⊢
      tauto
  · rw [hm.nextPid, hm.created, h.pids.nextPid, int32_succ]
    norm_cast

/-- With a NULL the creation does nothing. -/
theorem createTask_failed (s : Sched) (entry size mem memSize : Nat) {kstack : Nat}
    (h : t = 0 ∨ kstack = 0) : createTask s entry size mem memSize t kstack = (s, 0) := by
  unfold createTask
  rcases h with rfl | rfl <;> simp

/-- What a creation with fresh blocks changes. -/
theorem Inv.made (h : Inv s head l z) (entry size mem memSize : Nat) {kstack : Nat} (ht0 : t ≠ 0)
    (hk0 : kstack ≠ 0) (hfresh : Fresh s t kstack) :
    Made s (createTask s entry size mem memSize t kstack).1 l t kstack := by
  have htl : t ∉ l := fun hm =>
    (hfresh.1 ht0).1 (h.owned.record t (List.mem_append_left _ hm) (hfresh.1 ht0).2.1)
  exact createTask_made h.lists.ring h.taskRing_ne_zero htl entry size mem memSize ht0 hk0

theorem createTask_good (h : Inv s s.zombieList l z) (entry size mem memSize : Nat) {kstack : Nat}
    (hfresh : Fresh s t kstack) :
    Good (createTask s entry size mem memSize t kstack).1 := by
  by_cases hmade : t = 0 ∨ kstack = 0
  · rw [createTask_failed s entry size mem memSize hmade]
    exact ⟨l, z, h⟩
  · obtain ⟨ht0, hk0⟩ := not_or.mp hmade
    have hm := h.made entry size mem memSize ht0 hk0 hfresh
    exact ⟨l ++ [t], z, h.create hm ht0 hk0 hfresh⟩

end KernelC.Multitask
