import KernelC.Multitask.Invariant

/-!
# Tasks that end

A task exits, stops itself, or is stopped by another one. `Queued` is what the
first two have in common: the task becomes a zombie and goes to the front of the
zombie list. It stays in the ring when it exits and leaves it when it stops
itself.

Results: `taskExit`, `taskStop` and `taskIsAlive` return and keep the invariant,
with a smaller ring; `Outlived` says which tasks live on.
-/

namespace KernelC.Multitask

variable {s s' : Sched} {head t : Nat} {l z l' : List Nat}

/-- The tasks in `dead` have ended, every other one that lived still does. -/
structure Outlived (s s' : Sched) (dead : Nat → Prop) : Prop where
  created : s'.created = s.created
  live : ∀ u, s'.fate u = .live ↔ s.fate u = .live ∧ ¬ dead u

/-- One task gets another fate. -/
theorem outlived_of_update {u : Nat} {f : Fate} (hcreated : s'.created = s.created)
    (hfate : s'.fate = Function.update s.fate u f) (hf : f ≠ .live) :
    Outlived s s' (· = u) := by
  refine ⟨hcreated, fun v => ?_⟩
  rw [hfate]
  by_cases hv : v = u
  · simp [hv, hf]
  · simp [hv]

theorem Reaped.outlived {u : Sched} {dead : Nat → Prop} (h : Reaped s u) (h' : Outlived u s' dead) :
    Outlived s s' dead :=
  ⟨h'.created.trans h.created, fun v => by rw [h'.live, h.live]⟩

theorem Outlived.reaped {u : Sched} {dead : Nat → Prop} (h : Outlived s u dead) (h' : Reaped u s') :
    Outlived s s' dead :=
  ⟨h'.created.trans h.created, fun v => by rw [h'.live, h.live]⟩

/-! ## A task ends -/

/-- The task `c` becomes a zombie and goes to the front of the zombie list; the
ring is then `l'`. -/
structure Queued (s s' : Sched) (l' : List Nat) (c : Nat) (f : Fate) : Prop where
  ring : Ring s'.next s'.taskRing l'
  nextSelf : s'.next c = s.next c
  znext : s'.znext = Function.update s.znext c s.zombieList
  uid : ∀ a, (s'.task a).uid = (s.task a).uid
  kstack : ∀ a, (s'.task a).kstack = (s.task a).kstack
  pid : ∀ a, (s'.task a).pid = (s.task a).pid
  stateSelf : (s'.task c).state = .zombie
  state : ∀ a, a ≠ c → (s'.task a).state = (s.task a).state
  zombieList : s'.zombieList = c
  current : s'.current = s.current
  nextPid : s'.nextPid = s.nextPid
  created : s'.created = s.created
  alloc : s'.alloc = s.alloc
  fate : s'.fate = Function.update s.fate (s.task c).uid f
  freed : s'.freed = s.freed

namespace Queued

variable {c : Nat} {f : Fate}

theorem lists (hq : Queued s s' l' c f) (h : Lists s s.zombieList l z) (hcz : c ∉ z)
    (hci : c ≠ initTask) (hl : ∀ a, a ≠ c → (a ∈ l' ↔ a ∈ l)) :
    Lists s' s'.zombieList l' (c :: z) := by
  refine ⟨hq.ring, ?_, ?_, ?_, ?_, ?_⟩
  · rw [hq.zombieList, hq.znext]
    refine ⟨rfl, ?_⟩
    rw [Function.update_self]
    exact h.zombies.update hcz
  · exact (hl _ (Ne.symm hci)).mpr h.init
  · rw [List.mem_cons]
    exact fun hm => hm.elim (fun he => hci he.symm) h.initLive
  · intro a ha haz
    have hac : a ≠ c := fun he => haz (by simp [he])
    have := h.ready a ((hl a hac).mp ha) fun hm => haz (List.mem_cons_of_mem _ hm)
    unfold runnable at this ⊢
    rw [hq.state a hac]
    exact this
  · intro a ha
    by_cases hac : a = c
    · rw [hac]
      exact hq.stateSelf
    · rw [hq.state a hac]
      exact h.ended a ((List.mem_cons.mp ha).resolve_left hac)

theorem fates (hq : Queued s s' l' c f) (h : Fates s l z) (ho : Owned s (l ++ z)) (hc : c ∈ l)
    (hl : ∀ a, a ≠ c → (a ∈ l' ↔ a ∈ l)) (hmem : ∀ a, a ∈ l' ++ c :: z ↔ a ∈ l ++ z)
    (hf : f = fateOf l' (c :: z) c) : Fates s' l' (c :: z) := by
  have hcM : c ∈ l ++ z := List.mem_append_left _ hc
  refine ⟨?_, ?_, ?_, ?_, ?_, ?_⟩
  · intro a ha
    rw [hq.fate, hq.uid]
    by_cases hac : a = c
    · rw [hac, Function.update_self, hf]
    · have hne : (s.task a).uid ≠ (s.task c).uid := fun he =>
        hac (ho.uidInj a ((hmem a).mp ha) c hcM he)
      rw [Function.update_of_ne hne, h.known a ((hmem a).mp ha)]
      exact fateOf_congr (hl a hac).symm (by simp [hac])
  · intro u hu
    rw [hq.fate] at hu
    by_cases huc : u = (s.task c).uid
    · exact ⟨c, by simp, by rw [hq.uid, huc]⟩
    · rw [Function.update_of_ne huc] at hu
      obtain ⟨a, ha, hau⟩ := h.complete u hu
      exact ⟨a, (hmem a).mpr ha, by rw [hq.uid, hau]⟩
  · intro u hu
    have hle := ho.uidLe c hcM
    rw [hq.created] at hu
    rw [hq.fate, Function.update_of_ne (by omega)]
    exact h.absent u hu
  · intro e he
    rw [hq.freed] at he
    have hfreed := h.freed e he
    have hne : e.uid ≠ (s.task c).uid := by
      intro heq
      have hpres := fateOf_present l z c
      rw [← h.known c hcM, ← heq] at hpres
      rcases hfreed with hx | hx <;> rw [hx] at hpres <;> simp [Present] at hpres
    rw [hq.fate, Function.update_of_ne hne]
    exact hfreed
  · rw [hq.freed]
    exact h.once
  · rw [hq.freed]
    exact h.notCurrent

end Queued

theorem Inv.queue {c : Nat} {f : Fate} (h : Inv s s.zombieList l z) (hq : Queued s s' l' c f)
    (hc : c ∈ l) (hcz : c ∉ z) (hci : c ≠ initTask) (hl : ∀ a, a ≠ c → (a ∈ l' ↔ a ∈ l))
    (hf : f = fateOf l' (c :: z) c) (hcur : Current s' l' (c :: z)) :
    Inv s' s'.zombieList l' (c :: z) := by
  have hmem : ∀ a, a ∈ l' ++ c :: z ↔ a ∈ l ++ z := by
    intro a
    by_cases hac : a = c
    · simp [hac, hc]
    · simp only [List.mem_append, List.mem_cons, hl a hac, hac, false_or]
  refine ⟨hq.lists h.lists hcz hci hl,
    h.owned.congr (fun a ha => (hmem a).mp ha) hq.uid (fun a _ => hq.kstack a) hq.alloc hq.created,
    hq.fates h.fates h.owned hc hl hmem hf, hcur, fun a ha => ?_, ?_⟩
  · rw [hq.pid, hq.uid]
    exact h.pids.pid a ((hmem a).mp ha)
  · rw [hq.nextPid, hq.created]
    exact h.pids.nextPid

theorem endCurrent_self (s : Sched) (g : Task → Task) (f : Fate) (h0 : s.current ≠ 0) :
    (endCurrent s g f).task s.current = { g (s.task s.current) with znext := s.zombieList } := by
  simp [endCurrent, addToZombieList, Sched.setFate, Sched.modify, h0]

theorem endCurrent_of_ne (s : Sched) (g : Task → Task) (f : Fate) (h0 : s.current ≠ 0) {a : Nat}
    (ha : a ≠ s.current) : (endCurrent s g f).task a = s.task a := by
  simp [endCurrent, addToZombieList, Sched.setFate, Sched.modify, h0, ha]

theorem endCurrent_queued {g : Task → Task} (f : Fate) (h : Ring s.next s.taskRing l)
    (h0 : s.current ≠ 0)
    (hg : ∀ t, g t = { t with exitCode := (g t).exitCode, state := .zombie }) :
    Queued s (endCurrent s g f) l s.current f := by
  have hself := endCurrent_self s g f h0
  have hother := fun a => endCurrent_of_ne s g f h0 (a := a)
  have hrest : ∀ {β : Type} (p : Task → β), (∀ t, p { g t with znext := s.zombieList } = p t) →
      ∀ a, p ((endCurrent s g f).task a) = p (s.task a) := by
    intro β p hp a
    by_cases ha : a = s.current
    · rw [ha, hself]
      exact hp _
    · rw [hother a ha]
  have hnext : (endCurrent s g f).next = s.next :=
    funext (hrest Task.next fun t => by rw [hg t])
  have hglob : (endCurrent s g f).taskRing = s.taskRing ∧
      (endCurrent s g f).zombieList = s.current ∧ (endCurrent s g f).current = s.current ∧
      (endCurrent s g f).nextPid = s.nextPid ∧ (endCurrent s g f).created = s.created ∧
      (endCurrent s g f).alloc = s.alloc ∧ (endCurrent s g f).freed = s.freed := by
    unfold endCurrent addToZombieList
    rw [if_neg h0]
    exact ⟨rfl, rfl, rfl, rfl, rfl, rfl, rfl⟩
  obtain ⟨hring, hzl, hcur, hpid, hcreated, halloc, hfreed⟩ := hglob
  refine ⟨?_, by rw [hnext], ?_, hrest Task.uid fun t => by rw [hg t],
    hrest Task.kstack fun t => by rw [hg t], hrest Task.pid fun t => by rw [hg t], ?_, ?_, hzl, hcur,
    hpid, hcreated, halloc, ?_, hfreed⟩
  · rw [hnext, hring]
    exact h
  · funext a
    by_cases ha : a = s.current
    · rw [ha, Function.update_self]
      unfold Sched.znext
      rw [hself]
    · rw [Function.update_of_ne ha]
      unfold Sched.znext
      rw [hother a ha]
  · rw [hself, hg]
  · intro a ha
    rw [hother a ha]
  · unfold endCurrent addToZombieList
    rw [if_neg h0]
    unfold Sched.setFate
    rw [modify_self, hg]
    rfl

theorem Queued.unlink {u : Sched} {c : Nat} {f : Fate} (hq : Queued s u l c f)
    (hring : Ring s'.next s'.taskRing l') (hu : OnlyRing u s') (hnext : s'.next c = u.next c) :
    Queued s s' l' c f :=
  ⟨hring, hnext.trans hq.nextSelf, hu.znext.trans hq.znext, fun a => (hu.uid a).trans (hq.uid a),
    fun a => (hu.kstack a).trans (hq.kstack a), fun a => (hu.pid a).trans (hq.pid a),
    (hu.state c).trans hq.stateSelf, fun a ha => (hu.state a).trans (hq.state a ha),
    hu.zombieList.trans hq.zombieList, hu.current.trans hq.current, hu.nextPid.trans hq.nextPid,
    hu.created.trans hq.created, hu.alloc.trans hq.alloc, hu.fate.trans hq.fate,
    hu.freed.trans hq.freed⟩

/-- `task_exit` after reaping, in a task other than `init_task`. -/
theorem exit_queued (h : Inv s s.zombieList l []) (hc : s.current ∈ l) (hci : s.current ≠ initTask)
    (code : Int) :
    ∃ s', endCurrent s (fun t => { t with exitCode := code, state := .zombie }) .exited = s' ∧
      Queued s s' l s.current .exited ∧ Inv s' s'.zombieList l [s.current] := by
  have h0 := h.owned.nonnull s.current (List.mem_append_left _ hc)
  have hq := endCurrent_queued (g := fun t => { t with exitCode := code, state := .zombie }) .exited
    h.lists.ring h0 fun t => rfl
  refine ⟨_, rfl, hq, h.queue hq hc (by simp) hci (fun a _ => Iff.rfl) ?_ (.inr (.inl ?_))⟩
  · simp [fateOf, hc]
  · rw [hq.current]
    exact hc

/-- A task that ends does not run on. -/
theorem Queued.shrunk {c : Nat} {f : Fate} (hq : Queued s s' l' c f) (hsub : l' ⊆ l) :
    Shrunk s s' l l' := by
  refine ⟨hsub, fun a ha => ?_, hq.current⟩
  by_cases hac : a = c
  · rw [hac, hq.stateSelf] at ha
    cases ha
  · rw [← hq.state a hac]
    exact ha

theorem taskExit_good (h : Inv s s.zombieList l z) (halive : Alive s l z) (code : Int) :
    ∃ s', taskExit s code = some s' ∧ Thinned s s' l ∧
      Outlived s s' fun u => s.current ≠ 0 ∧ s.current ≠ initTask ∧ (s.task s.current).uid = u := by
  obtain ⟨u, l', hreap, hu, hua, hreaped, hshrunk⟩ := reapZombiesInternal_spec h halive
  unfold taskExit
  rw [hreap, Option.map_some]
  by_cases hret : u.current = 0 ∨ u.current = initTask
  · rw [if_pos hret]
    refine ⟨u, rfl, ⟨l', [], hu, hshrunk, fun _ => rfl⟩, hreaped.created, fun v => ?_⟩
    rw [hreaped.current] at hret
    rw [hreaped.live]
    tauto
  rw [if_neg hret]
  have h0 : u.current ≠ 0 := fun he => hret (.inl he)
  have hc : u.current ∈ l' := (hua.resolve_left h0).1
  obtain ⟨s', hs', hq, hinv⟩ := exit_queued hu hc (fun he => hret (.inr he)) code
  refine ⟨s', by rw [hs'], ⟨l', [u.current], hinv, hshrunk.trans (hq.shrunk fun _ ha => ha),
    fun he => absurd (hshrunk.current.trans he) h0⟩, ?_⟩
  have hout := hreaped.outlived (outlived_of_update hq.created hq.fate (by decide))
  refine ⟨hout.created, fun v => ?_⟩
  rw [hout.live, hreaped.uid, hreaped.current]
  rw [hreaped.current] at hret
  have hcomm : v = (s.task s.current).uid ↔ (s.task s.current).uid = v := eq_comm
  tauto

/-- The current task stops itself: it leaves the ring, and its successor there
is where the next tick starts. -/
theorem stopSelf_queued (h : Inv s s.zombieList l []) (hc : s.current ∈ l)
    (hci : s.current ≠ initTask) :
    ∃ s', stopSelf s = some s' ∧ Queued s s' (l.erase s.current) s.current .selfStopped ∧
      Inv s' s'.zombieList (l.erase s.current) [s.current] := by
  have h0 := h.owned.nonnull s.current (List.mem_append_left _ hc)
  have hq := endCurrent_queued (g := fun t => { t with state := .zombie }) .selfStopped
    h.lists.ring h0 fun t => rfl
  have hring := hq.ring
  obtain ⟨s', r, hunlink, hring', honly, hnext⟩ := unlinkFromRing_spec hring
    (h.owned.length_le h.lists.ring.nodup)
    (fun hz => h.owned.nonnull 0 (List.mem_append_left _ hz) rfl) h.lists.init h0 hci
  have hq' := hq.unlink hring' honly hnext
  have hmem : ∀ a, a ∈ l.erase s.current ↔ a ∈ l ∧ a ≠ s.current := fun a => by
    rw [h.lists.ring.nodup.mem_erase_iff, and_comm]
  refine ⟨s', ?_, hq', h.queue hq' hc (by simp) hci
    (fun a ha => by rw [hmem, and_iff_left ha]) ?_ (.inr (.inr ?_))⟩
  · unfold stopSelf
    dsimp only
    rw [hq.current, hunlink, Option.map_some]
  · simp [fateOf, hmem]
  · rw [hq'.current, hq'.nextSelf]
    exact ⟨by simp, (hmem _).mpr ⟨h.lists.ring.next_mem hc,
      h.lists.ring.next_ne hc h.lists.init (Ne.symm hci)⟩⟩

theorem stopSelf_good (h : Inv s s.zombieList l []) (hc : s.current ∈ l)
    (hci : s.current ≠ initTask) :
    ∃ s', stopSelf s = some s' ∧ Thinned s s' l ∧ Outlived s s' (· = (s.task s.current).uid) := by
  have h0 := h.owned.nonnull s.current (List.mem_append_left _ hc)
  obtain ⟨s', hs', hq, hinv⟩ := stopSelf_queued h hc hci
  exact ⟨s', hs', ⟨_, _, hinv, hq.shrunk List.erase_subset, fun he => absurd he h0⟩,
    outlived_of_update hq.created hq.fate (by decide)⟩

/-! ## Stopping and asking -/

/-- The search goes round the ring once, from its first task. -/
theorem Inv.findPid_eq (h : Inv s head l z) (pid : Int) :
    findPid s pid = some (l.find? fun a => (s.task a).pid = pid) := by
  have hring := h.lists.ring
  obtain ⟨x, r, rfl⟩ := List.exists_cons_of_ne_nil (List.ne_nil_of_mem h.lists.init)
  have hlen := h.owned.length_le hring.nodup
  have hstart := hring.start_notMem
  obtain ⟨hx, hr⟩ := hring.path
  rw [List.length_cons] at hlen
  unfold findPid
  dsimp only
  rw [hx] at hstart hr ⊢
  exact ringFind_eq ⟨rfl, hr⟩ hstart (by omega)

theorem Inv.init_pid (h : Inv s head l z) : (s.task initTask).pid = 0 := by
  rw [h.pids.pid _ (List.mem_append_left _ h.lists.init), h.owned.uidInit]
  decide

/-- What the search finds. -/
theorem found_spec {pid : Int} {a : Nat}
    (hfound : (l.find? fun a => (s.task a).pid = pid) = some a) : a ∈ l ∧ (s.task a).pid = pid :=
  ⟨List.mem_of_find?_eq_some hfound, by simpa using List.find?_some hfound⟩

theorem Inv.ne_init_of_pid (h : Inv s head l z) {pid : Int} (hpid : pid ≠ 0) {a : Nat}
    (ha : (s.task a).pid = pid) : a ≠ initTask := by
  intro he
  rw [he, h.init_pid] at ha
  exact hpid ha.symm

theorem stopOther_good (h : Inv s s.zombieList l []) (halive : Alive s l []) (ht : t ∈ l)
    (hti : t ≠ initTask) (hcur : t ≠ s.current) :
    ∃ s', stopOther s t = some s' ∧ Thinned s s' l ∧ Outlived s s' (· = (s.task t).uid) := by
  obtain ⟨u, r, hunlink, hrem, hinv, halive'⟩ := h.unlink_free halive (List.mem_append_left _ ht)
    hti (f := .stopped) (.inl rfl) hcur (y := []) (by simp) h.lists.zombies
  rw [← hrem.zombieList] at hinv
  obtain ⟨s', l', hreap, hs', -, hreaped, hshrunk⟩ := reapZombiesInternal_spec hinv halive'
  refine ⟨s', ?_, ⟨l', [], hs', hrem.shrunk.trans hshrunk, fun _ => rfl⟩,
    (outlived_of_update hrem.created hrem.fate (by decide)).reaped hreaped⟩
  unfold stopOther
  rw [hunlink, Option.bind_some]
  exact hreap

/-- `task_stop` reaps; then it ends the task that has the pid, if there is one in
the ring. -/
theorem taskStop_spec (h : Inv s s.zombieList l z) (halive : Alive s l z) {pid : Int}
    (hpid : pid ≠ 0) :
    ∃ u l' s' r, Reaped s u ∧ Inv u u.zombieList l' [] ∧ taskStop s pid = some (s', r) ∧
      Thinned s s' l ∧
      ((s' = u ∧ ∀ a ∈ l', (u.task a).pid ≠ pid) ∨
        ∃ a ∈ l', (u.task a).pid = pid ∧ Outlived u s' (· = (u.task a).uid)) := by
  obtain ⟨u, l', hreap, hu, hua, hreaped, hshrunk⟩ := reapZombiesInternal_spec h halive
  refine ⟨u, l', ?_⟩
  unfold taskStop
  rw [if_neg hpid, hreap, Option.bind_some, if_neg hu.taskRing_ne_zero, hu.findPid_eq,
    Option.bind_some]
  cases hfound : l'.find? fun a => (u.task a).pid = pid with
  | none =>
    refine ⟨u, _, hreaped, hu, rfl, ⟨l', [], hu, hshrunk, fun _ => rfl⟩,
      .inl ⟨rfl, fun a ha => ?_⟩⟩
    simpa using List.find?_eq_none.mp hfound a ha
  | some a =>
    obtain ⟨ha, hapid⟩ := found_spec hfound
    have hai := hu.ne_init_of_pid hpid hapid
    dsimp only
    by_cases hcur : a = u.current
    · subst hcur
      obtain ⟨s', hs', hthin, hout⟩ := stopSelf_good hu ha hai
      exact ⟨s', _, hreaped, hu, by rw [if_pos rfl, hs', Option.map_some], hshrunk.thinned hthin,
        .inr ⟨u.current, ha, hapid, hout⟩⟩
    · obtain ⟨s', hs', hthin, hout⟩ := stopOther_good hu hua ha hai hcur
      exact ⟨s', _, hreaped, hu, by rw [if_neg hcur, hs', Option.map_some], hshrunk.thinned hthin,
        .inr ⟨a, ha, hapid, hout⟩⟩

/-- `task_is_alive` reaps; then it answers whether the pid is in the ring. -/
theorem taskIsAlive_spec (h : Inv s s.zombieList l z) (halive : Alive s l z) {pid : Int}
    (hpid : 0 < pid) :
    ∃ u l' r, Reaped s u ∧ Shrunk s u l l' ∧ Inv u u.zombieList l' [] ∧ reapZombies s = some u ∧
      taskIsAlive s pid = some (u, r) ∧ (r = 0 ∨ r = 1) ∧
      (r = 1 ↔ ∃ a ∈ l', (u.task a).pid = pid) := by
  obtain ⟨u, l', hreap, hu, -, hreaped, hshrunk⟩ := reapZombiesInternal_spec h halive
  refine ⟨u, l', ?_⟩
  unfold taskIsAlive
  rw [if_neg (by omega), hreap, Option.bind_some, if_neg hu.taskRing_ne_zero, hu.findPid_eq,
    Option.map_some]
  cases hfound : l'.find? fun a => (u.task a).pid = pid with
  | none =>
    refine ⟨0, hreaped, hshrunk, hu, hreap, rfl, .inl rfl, fun h => absurd h (by decide), ?_⟩
    rintro ⟨a, ha, hapid⟩
    exact absurd hapid (by simpa using List.find?_eq_none.mp hfound a ha)
  | some a =>
    obtain ⟨ha, hapid⟩ := found_spec hfound
    have hstate : (u.task a).state ≠ .zombie := by
      intro hz
      have hrun := hu.lists.ready a ha (by simp)
      rw [runnable, hz] at hrun
      exact absurd hrun (by decide)
    dsimp only
    rw [if_pos hstate]
    exact ⟨1, hreaped, hshrunk, hu, hreap, rfl, .inr rfl, fun _ => ⟨a, ha, hapid⟩, fun _ => rfl⟩

end KernelC.Multitask
