import KernelC.Multitask.Lists

/-!
# The invariant, and reaping

`Inv s head l z` is the whole invariant of a scheduler state: the ring holds
the tasks `l`, the list from `head` the zombies `z`.

Reaping needs that the current task is alive (`Alive`). Then the loop of
`reap_zombies_internal` frees the zombies one after the other and returns
(`reapZombiesInternal_spec`).
-/

namespace KernelC.Multitask

/-- The pids are the serial numbers, as far as an `int` holds them. -/
structure Pids (s : Sched) (M : List Nat) : Prop where
  pid : ∀ a ∈ M, (s.task a).pid = int32 (s.task a).uid
  nextPid : s.nextPid = int32 (s.created + 1)

structure Inv (s : Sched) (head : Nat) (l z : List Nat) : Prop where
  lists : Lists s head l z
  owned : Owned s (l ++ z)
  fates : Fates s l z
  current : Current s l z
  pids : Pids s (l ++ z)

/-- Some lists make the invariant hold. -/
def Good (s : Sched) : Prop := ∃ l z, Inv s s.zombieList l z

/-- The current task has not ended. -/
def Alive (s : Sched) (l z : List Nat) : Prop :=
  s.current = 0 ∨ (s.current ∈ l ∧ s.current ∉ z)

variable {s s' : Sched} {head t : Nat} {l z l' : List Nat}

theorem Inv.alive (h : Inv s head l z) (he : ¬ Ended s) : Alive s l z := by
  have hz : s.current ≠ 0 → s.current ∉ z := fun h0 hz => he ⟨h0, h.lists.ended _ hz⟩
  rcases h.current with h0 | hl | ⟨hcz, -⟩
  · exact .inl h0
  · by_cases h0 : s.current = 0
    · exact .inl h0
    · exact .inr ⟨hl, hz h0⟩
  · by_cases h0 : s.current = 0
    · exact .inl h0
    · exact absurd hcz (hz h0)

theorem Inv.init_ne_zombie (h : Inv s head l z) (ht : t ∈ z) : t ≠ initTask :=
  fun he => h.lists.initLive (he ▸ ht)

theorem Inv.taskRing_ne_zero (h : Inv s head l z) : s.taskRing ≠ 0 :=
  h.owned.nonnull _ (List.mem_append_left _ h.lists.ring.tail_mem)

/-! ## Reaping -/

theorem Alive.current (h : Alive s l z) : Current s l z := by
  rcases h with h0 | ⟨hl, -⟩
  · exact .inl h0
  · exact .inr (.inl hl)

/-- A task other than the current one leaves the ring and is freed. -/
theorem Inv.remove {f : Fate} (h : Inv s head l z) (hr : Removed s s' l t f) (htM : t ∈ l ++ z)
    (ht : t ≠ initTask) (hf : f = .stopped ∨ f = .reaped) (hcur : t ≠ s.current)
    (halive : Alive s l z) {y : List Nat} {p : Nat} (hz : ∀ a, a ∈ y ↔ a ∈ z ∧ a ≠ t)
    (hpath : Path s.znext p y 0) :
    Inv s' p (l.erase t) y ∧ Alive s' (l.erase t) y := by
  have hl : ∀ a, a ∈ l.erase t ↔ a ∈ l ∧ a ≠ t := fun a => by
    rw [h.lists.ring.nodup.mem_erase_iff, and_comm]
  have hsub : ∀ a ∈ l.erase t ++ y, a ∈ l ++ z ∧ a ≠ t := by
    intro a ha
    simp only [List.mem_append, hl, hz] at ha ⊢
    tauto
  have halive' : Alive s' (l.erase t) y := by
    unfold Alive
    rw [hr.current]
    rcases halive with h0 | ⟨hcl, hcz⟩
    · exact .inl h0
    · exact .inr ⟨(hl _).mpr ⟨hcl, Ne.symm hcur⟩, fun hm => hcz ((hz _).mp hm).1⟩
  refine ⟨⟨⟨hr.ring, ?_, ?_, ?_, ?_, ?_⟩, ?_, ?_, halive'.current, ?_⟩, halive'⟩
  · rw [hr.znext]
    exact hpath
  · exact (hl _).mpr ⟨h.lists.init, Ne.symm ht⟩
  · exact fun hm => h.lists.initLive ((hz _).mp hm).1
  · intro a ha haz
    have hal := (hl a).mp ha
    have := h.lists.ready a hal.1 fun hm => haz ((hz a).mpr ⟨hm, hal.2⟩)
    unfold runnable at this ⊢
    rw [hr.state]
    exact this
  · intro a ha
    rw [hr.state]
    exact h.lists.ended a ((hz a).mp ha).1
  · exact hr.owned h.owned htM ht hsub
  · exact hr.fates h.fates h.owned htM hf hcur hl hz
  · refine ⟨fun a ha => ?_, ?_⟩
    · rw [hr.pid, hr.uid]
      exact h.pids.pid a (hsub a ha).1
    · rw [hr.nextPid, hr.created]
      exact h.pids.nextPid

/-- `unlink_from_ring` and `free_task_resources` on such a task. -/
theorem Inv.unlink_free (h : Inv s head l z) (halive : Alive s l z) (htM : t ∈ l ++ z)
    (ht : t ≠ initTask) {f : Fate} (hf : f = .stopped ∨ f = .reaped) (hcur : t ≠ s.current)
    {y : List Nat} {p : Nat} (hz : ∀ a, a ∈ y ↔ a ∈ z ∧ a ≠ t) (hpath : Path s.znext p y 0) :
    ∃ u r, unlinkFromRing s t = some (u, r) ∧ Removed s (freeTaskResources u t f) l t f ∧
      Inv (freeTaskResources u t f) p (l.erase t) y ∧
      Alive (freeTaskResources u t f) (l.erase t) y := by
  obtain ⟨u, r, hunlink, hrem⟩ :=
    unlink_free_spec h.lists.ring h.owned h.lists.init (h.owned.nonnull t htM) ht f
  obtain ⟨hinv, halive'⟩ := h.remove hrem htM ht hf hcur halive hz hpath
  exact ⟨u, r, hunlink, hrem, hinv, halive'⟩

/-- The reaper's work on the first zombie. -/
theorem Inv.reap_first (h : Inv s head l (t :: z)) (halive : Alive s l (t :: z)) :
    head = t ∧ t ≠ 0 ∧ t ≠ initTask ∧
    ∃ u r, unlinkFromRing s t = some (u, r) ∧
      Removed s (freeTaskResources u t .reaped) l t .reaped ∧
      Inv (freeTaskResources u t .reaped) (s.znext t) (l.erase t) z ∧
      Alive (freeTaskResources u t .reaped) (l.erase t) z := by
  obtain ⟨rfl, hrest⟩ := h.lists.zombies
  have htM : head ∈ l ++ head :: z := by simp
  have ht0 := h.owned.nonnull head htM
  have hti := h.init_ne_zombie (t := head) (by simp)
  have hcur : head ≠ s.current := by
    rcases halive with h0 | ⟨-, hcz⟩
    · rw [h0]
      exact ht0
    · exact fun he => hcz (by simp [← he])
  have hnot := (List.nodup_cons.mp (h.lists.zombies_nodup h.owned)).1
  refine ⟨rfl, ht0, hti, h.unlink_free halive htM hti (.inr rfl) hcur (fun a => ?_) hrest⟩
  rw [List.mem_cons]
  constructor
  · exact fun ha => ⟨.inr ha, fun he => hnot (he ▸ ha)⟩
  · exact fun ha => ha.1.resolve_left ha.2

/-- What reaping leaves alone: the tasks that live, and which task runs. -/
structure Reaped (s s' : Sched) : Prop where
  uid : ∀ a, (s'.task a).uid = (s.task a).uid
  current : s'.current = s.current
  created : s'.created = s.created
  live : ∀ u, s'.fate u = .live ↔ s.fate u = .live

theorem Reaped.refl (s : Sched) : Reaped s s :=
  ⟨fun _ => rfl, rfl, rfl, fun _ => Iff.rfl⟩

theorem Reaped.trans {u : Sched} (h : Reaped s u) (h' : Reaped u s') : Reaped s s' :=
  ⟨fun a => (h'.uid a).trans (h.uid a), h'.current.trans h.current, h'.created.trans h.created,
    fun v => (h'.live v).trans (h.live v)⟩

/-- Tasks leave the ring, whatever becomes of them, and none starts to run. -/
structure Shrunk (s s' : Sched) (l l' : List Nat) : Prop where
  sub : l' ⊆ l
  running : ∀ a, (s'.task a).state = .running → (s.task a).state = .running
  current : s'.current = s.current

theorem Shrunk.refl (s : Sched) (l : List Nat) : Shrunk s s l l :=
  ⟨fun _ ha => ha, fun _ ha => ha, rfl⟩

theorem Shrunk.trans {u : Sched} {m : List Nat} (h : Shrunk s u l m) (h' : Shrunk u s' m l') :
    Shrunk s s' l l' :=
  ⟨fun _ ha => h.sub (h'.sub ha), fun a ha => h.running a (h'.running a ha),
    h'.current.trans h.current⟩

theorem Removed.shrunk {f : Fate} (h : Removed s s' l t f) : Shrunk s s' l (l.erase t) :=
  ⟨List.erase_subset, fun a ha => (h.state a).symm.trans ha, h.current⟩

/-- The call leaves a smaller ring. Before the first tick it leaves no zombie:
the boot code is no task that could end. -/
def Thinned (s s' : Sched) (l : List Nat) : Prop :=
  ∃ l' z', Inv s' s'.zombieList l' z' ∧ Shrunk s s' l l' ∧ (s.current = 0 → z' = [])

theorem Thinned.good (h : Thinned s s' l) : Good s' := by
  obtain ⟨l', z', hinv, -⟩ := h
  exact ⟨l', z', hinv⟩

theorem Shrunk.thinned {u : Sched} {m : List Nat} (h : Shrunk s u l m) (h' : Thinned u s' m) :
    Thinned s s' l := by
  obtain ⟨l', z', hinv, hshrunk, hboot⟩ := h'
  exact ⟨l', z', hinv, h.trans hshrunk, fun h0 => hboot (h.current.trans h0)⟩

/-- A zombie that is freed did not live before. -/
theorem Inv.reaped_of_removed (h : Inv s head l z) (hr : Removed s s' l t .reaped) (ht : t ∈ z) :
    Reaped s s' := by
  refine ⟨hr.uid, hr.current, hr.created, fun u => ?_⟩
  rw [hr.fate]
  by_cases hu : u = (s.task t).uid
  · have hknown := h.fates.known t (List.mem_append_right _ ht)
    rw [fateOf, if_pos ht] at hknown
    rw [hu, Function.update_self, hknown]
    split <;> simp
  · rw [Function.update_of_ne hu]

/-- The reaper's loop: the zombies are freed one after the other. -/
theorem reapLoop_spec {k : Nat} (h : Inv s head l z) (halive : Alive s l z) (hk : z.length < k) :
    ∃ s' l', reapLoop k s head = some s' ∧ Inv s' 0 l' [] ∧ Alive s' l' [] ∧
      s'.zombieList = s.zombieList ∧ Reaped s s' ∧ Shrunk s s' l l' := by
  induction z generalizing s head l k with
  | nil =>
    obtain ⟨k, rfl⟩ : ∃ i, k = i + 1 := ⟨k - 1, by simp only [List.length_nil] at hk; omega⟩
    have hhead : head = 0 := h.lists.zombies
    subst hhead
    exact ⟨s, l, by rw [reapLoop, if_pos rfl], h, halive, rfl, .refl s, .refl s l⟩
  | cons t z ih =>
    rw [List.length_cons] at hk
    obtain ⟨k, rfl⟩ : ∃ i, k = i + 1 := ⟨k - 1, by omega⟩
    obtain ⟨rfl, ht0, -, u, r, hunlink, hrem, hinv, halive'⟩ := h.reap_first halive
    obtain ⟨s', l', hloop, hs', ha', hzl, hreaped, hshrunk⟩ := ih hinv halive' (k := k) (by omega)
    refine ⟨s', l', ?_, hs', ha', hzl.trans hrem.zombieList,
      (h.reaped_of_removed hrem (by simp)).trans hreaped, hrem.shrunk.trans hshrunk⟩
    rw [reapLoop, if_neg ht0]
    simp only [hunlink, Option.bind_some]
    exact hloop

theorem Inv.zombies_length_lt (h : Inv s head l z) : z.length < 2 ^ 64 := by
  have hnodup := List.nodup_cons.mpr ⟨h.lists.initLive, h.lists.zombies_nodup h.owned⟩
  have hle := length_le_of_bounded (n := 2 ^ 64) hnodup (by
    rintro a (_ | ⟨_, ha⟩)
    · decide
    · exact h.owned.bounded a (List.mem_append_right _ ha))
  rw [List.length_cons] at hle
  omega

/-- The reaper takes the whole list. -/
theorem Inv.detach (h : Inv s head l z) : Inv { s with zombieList := 0 } head l z :=
  ⟨⟨h.lists.ring, h.lists.zombies, h.lists.init, h.lists.initLive, h.lists.ready, h.lists.ended⟩,
    ⟨h.owned.nonnull, h.owned.bounded, h.owned.record, h.owned.stack, h.owned.stackApart,
      h.owned.stackInj, h.owned.uidInit, h.owned.uidInj, h.owned.uidLe⟩,
    ⟨h.fates.known, h.fates.complete, h.fates.absent, h.fates.freed, h.fates.once,
      h.fates.notCurrent⟩, h.current, ⟨h.pids.pid, h.pids.nextPid⟩⟩

theorem reapZombiesInternal_spec (h : Inv s s.zombieList l z) (halive : Alive s l z) :
    ∃ s' l', reapZombiesInternal s = some s' ∧ Inv s' s'.zombieList l' [] ∧ Alive s' l' [] ∧
      Reaped s s' ∧ Shrunk s s' l l' := by
  obtain ⟨s', l', hloop, hinv, halive', hzl, hreaped, hshrunk⟩ :=
    reapLoop_spec h.detach halive h.zombies_length_lt
  have hzero : s'.zombieList = 0 := hzl
  rw [← hzero] at hinv
  exact ⟨s', l', hloop, hinv, halive',
    ⟨hreaped.uid, hreaped.current, hreaped.created, hreaped.live⟩, hshrunk.sub, hshrunk.running,
    hshrunk.current⟩

end KernelC.Multitask
