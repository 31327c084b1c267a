import KernelC.Malloc.Canonical
import KernelC.Multitask.Ledger

/-!
# The resources of the tasks over whole runs

The operations of the scheduler on the heaps, and what they leave. `Sound` is
the invariant of a run: the lists are in order and the books agree with them.

* `World.step_sound`: every call returns and keeps it.
* `World.step_user`: of the user heap a call only frees live blocks.
* `resource_conservation`: what the tasks hold in every state that is reached.
* `World.run_sched`: without the heaps, such a run is one of the scheduler, with
  the blocks that it was assumed to get.
-/

namespace KernelC.Multitask

open Malloc (Holds UserFrees userMagic)
open Malloc.Kernel (kernelMagic)

variable {R : HeapRegions} {w w' : World} {u : Sched} {head t : Nat} {l z N : List Nat} {f : Fate}

/-- The lists are in order and the books agree with them. -/
def Sound (R : HeapRegions) (w : World) : Prop :=
  ∃ l z, Inv w.sched w.sched.zombieList l z ∧ Ledger R w (l ++ z)

/-! ## Freeing -/

theorem Inv.uid_mem_holders {s : Sched} (h : Inv s head l z) (ht : t ∈ l ++ z)
    (hti : t ≠ initTask) : (s.task t).uid ∈ holders s := by
  refine ⟨fun h0 => hti ?_, ?_⟩
  · refine h.owned.uidInj t ht _ (List.mem_append_left _ h.lists.init) ?_
    rw [h0, h.owned.uidInit]
  · rw [h.fates.known t ht]
    exact fateOf_present l z t

/-- Of the user heap, at most the block of the task is freed. -/
theorem Ledger.frees (h : Ledger R w N) (ht : t ∈ N) (hti : t ≠ initTask)
    (hu : (w.sched.task t).uid ∈ holders w.sched) :
    UserFrees w.user (w.freeTaskResources t f).user := by
  obtain ⟨-, hkm, -, hmem⟩ := h.blocks_mem ht hti hu
  rw [h.freeTaskResources_eq ht hti hu, World.freeBlocks_eq w _ t (h.ne_zero hkm)]
  dsimp only
  split
  · exact .refl
  · next h0 => exact .single ⟨_, h.userLive (hmem h0), rfl⟩

theorem Ledger.unlink_free (hL : Ledger R w (l ++ z)) (hinv : Inv w.sched head l z)
    (ht : t ∈ l ++ z) (hti : t ≠ initTask) {r : Int}
    (hunlink : unlinkFromRing w.sched t = some (u, r)) (hf : Gone f)
    (hM : ∀ a ∈ N, a ∈ l ++ z ∧ a ≠ t) :
    Ledger R (World.freeTaskResources { w with sched := u } t f) N ∧
    Trimmed w (World.freeTaskResources { w with sched := u } t f) ∧
    UserFrees w.user (World.freeTaskResources { w with sched := u } t f).user := by
  have hsame := (unlinkFromRing_onlyRing hunlink).sameTasks
  have hL' : Ledger R { w with sched := u } (l ++ z) := hL.resched hsame fun _ ha => ha
  have huid := hinv.uid_mem_holders ht hti
  rw [← hsame.uid, ← hsame.holders] at huid
  refine ⟨hL'.freeTaskResources ht hti huid hf fun a ha => ⟨(hM a ha).1, ?_⟩, ?_,
    hL'.frees ht hti huid⟩
  · show (u.task a).uid ≠ (u.task t).uid
    rw [hsame.uid, hsame.uid]
    exact fun he => (hM a ha).2 (hinv.owned.uidInj a (hM a ha).1 t ht he)
  · have htrim := hL'.trimmed (f := f) ht hti huid
    exact ⟨htrim.kernel, htrim.made, htrim.user, htrim.handed, htrim.blocks⟩

/-! ## Reaping -/

theorem World.reapLoop_spec {k : Nat} (hinv : Inv w.sched head l z) (hL : Ledger R w (l ++ z))
    (halive : Alive w.sched l z) (hk : z.length < k) :
    ∃ w' l', World.reapLoop k w head = some w' ∧ Inv w'.sched 0 l' [] ∧ Alive w'.sched l' [] ∧
      w'.sched.zombieList = w.sched.zombieList ∧ Reaped w.sched w'.sched ∧ Ledger R w' (l' ++ []) ∧
      Trimmed w w' ∧ UserFrees w.user w'.user := by
  induction z generalizing w head l k with
  | nil =>
    obtain ⟨k, rfl⟩ : ∃ i, k = i + 1 := ⟨k - 1, by simp only [List.length_nil] at hk; omega⟩
    have hhead : head = 0 := hinv.lists.zombies
    subst hhead
    exact ⟨w, l, by rw [World.reapLoop, if_pos rfl], hinv, halive, rfl, .refl w.sched, hL,
      .refl w, .refl⟩
  | cons t z ih =>
    rw [List.length_cons] at hk
    obtain ⟨k, rfl⟩ : ∃ i, k = i + 1 := ⟨k - 1, by omega⟩
    obtain ⟨rfl, ht0, hti, u, r, hunlink, hrem, hinv', halive'⟩ := hinv.reap_first halive
    have hnot := (List.nodup_cons.mp (hinv.lists.zombies_nodup hinv.owned)).1
    obtain ⟨hL', htrim, hfrees⟩ := hL.unlink_free (N := l.erase head ++ z) hinv (by simp) hti
      hunlink (f := .reaped) (.inr rfl) fun a ha => by
        rw [List.mem_append, hinv.lists.ring.nodup.mem_erase_iff] at ha
        rcases ha with ⟨hat, hal⟩ | haz
        · exact ⟨List.mem_append_left _ hal, hat⟩
        · exact ⟨by simp [haz], fun he => hnot (he ▸ haz)⟩
    obtain ⟨w', l', hloop, hinv'', halive'', hzl, hreaped, hL'', htrim', hfrees'⟩ :=
      ih hinv' hL' halive' (k := k) (by omega)
    refine ⟨w', l', ?_, hinv'', halive'', hzl.trans hrem.zombieList,
      (hinv.reaped_of_removed hrem (by simp)).trans hreaped, hL'', htrim.trans htrim',
      hfrees.trans hfrees'⟩
    rw [World.reapLoop, if_neg ht0]
    simp only [hunlink, Option.bind_some]
    exact hloop

theorem World.reapZombiesInternal_spec (hinv : Inv w.sched w.sched.zombieList l z)
    (hL : Ledger R w (l ++ z)) (halive : Alive w.sched l z) :
    ∃ w' l', w.reapZombiesInternal = some w' ∧ Inv w'.sched w'.sched.zombieList l' [] ∧
      Alive w'.sched l' [] ∧ w'.sched.zombieList = 0 ∧ Reaped w.sched w'.sched ∧
      Ledger R w' (l' ++ []) ∧ Trimmed w w' ∧ UserFrees w.user w'.user := by
  have hsame : SameTasks w.sched { w.sched with zombieList := 0 } :=
    ⟨rfl, fun _ => Iff.rfl, fun _ => Iff.rfl, fun _ => rfl, fun _ _ => rfl, fun _ => rfl⟩
  obtain ⟨w', l', hloop, hinv', halive', hzl, hreaped, hL', htrim, hfrees⟩ := World.reapLoop_spec
    (w := { w with sched := { w.sched with zombieList := 0 } }) hinv.detach
    (hL.resched hsame fun _ ha => ha) halive hinv.zombies_length_lt
  have hzero : w'.sched.zombieList = 0 := hzl
  rw [← hzero] at hinv'
  exact ⟨w', l', hloop, hinv', halive', hzero,
    ⟨hreaped.uid, hreaped.current, hreaped.created, hreaped.live⟩, hL',
    ⟨htrim.kernel, htrim.made, htrim.user, htrim.handed, htrim.blocks⟩, hfrees⟩

/-! ## Ending a task -/

theorem World.stopOther_sound (hinv : Inv w.sched w.sched.zombieList l [])
    (hL : Ledger R w (l ++ [])) (halive : Alive w.sched l []) (ht : t ∈ l) (hti : t ≠ initTask)
    (hcur : t ≠ w.sched.current) :
    ∃ w', w.stopOther t = some w' ∧ Sound R w' ∧ UserFrees w.user w'.user := by
  have htM : t ∈ l ++ [] := List.mem_append_left _ ht
  obtain ⟨u, r, hunlink, hrem, hinv', halive'⟩ := hinv.unlink_free halive htM hti (f := .stopped)
    (.inl rfl) hcur (y := []) (by simp) hinv.lists.zombies
  obtain ⟨hL', -, hfrees⟩ := hL.unlink_free (N := l.erase t ++ []) hinv htM hti hunlink
    (f := .stopped) (.inl rfl) fun a ha => by
      rw [List.append_nil, hinv.lists.ring.nodup.mem_erase_iff] at ha
      exact ⟨List.mem_append_left _ ha.2, ha.1⟩
  rw [← hrem.zombieList] at hinv'
  obtain ⟨w', l', hreap, hinv'', -, -, -, hL'', -, hfrees'⟩ :=
    World.reapZombiesInternal_spec hinv' hL' halive'
  refine ⟨w', ?_, ⟨l', [], hinv'', hL''⟩, hfrees.trans hfrees'⟩
  unfold World.stopOther
  rw [hunlink, Option.bind_some]
  exact hreap

/-- The current task ends and goes to the zombies. -/
theorem Ledger.queue {s' : Sched} {l' : List Nat} (hL : Ledger R w (l ++ []))
    (hinv : Inv w.sched w.sched.zombieList l []) (hc : w.sched.current ∈ l)
    (hq : Queued w.sched s' l' w.sched.current f) (hf : Present f)
    (hmem : ∀ a, (s'.task a).userMem = (w.sched.task a).userMem) (hl : ∀ a ∈ l', a ∈ l) :
    Ledger R { w with sched := s' } (l' ++ [w.sched.current]) := by
  have hpres := fateOf_present l [] w.sched.current
  rw [← hinv.fates.known _ (List.mem_append_left _ hc)] at hpres
  refine hL.resched (hq.sameTasks hmem hpres hf) fun a ha => List.mem_append_left _ ?_
  rcases List.mem_append.mp ha with ha | ha
  · exact hl a ha
  · rw [List.mem_singleton.mp ha]
    exact hc

theorem World.stopSelf_sound (hinv : Inv w.sched w.sched.zombieList l [])
    (hL : Ledger R w (l ++ [])) (hc : w.sched.current ∈ l) (hci : w.sched.current ≠ initTask) :
    ∃ s', stopSelf w.sched = some s' ∧ Sound R { w with sched := s' } := by
  obtain ⟨s', hs', hq, hinv'⟩ := stopSelf_queued hinv hc hci
  have h0 := hinv.owned.nonnull _ (List.mem_append_left _ hc)
  exact ⟨s', hs', _, _, hinv', hL.queue hinv hc hq (.inr (.inr rfl)) (stopSelf_userMem hs' h0)
    fun a ha => List.mem_of_mem_erase ha⟩

theorem World.taskStop_sound (hinv : Inv w.sched w.sched.zombieList l z)
    (hL : Ledger R w (l ++ z)) (halive : Alive w.sched l z) (pid : Int) :
    ∃ w' r, w.taskStop pid = some (w', r) ∧ Sound R w' ∧ UserFrees w.user w'.user := by
  unfold World.taskStop
  by_cases hpid : pid = 0
  · rw [if_pos hpid]
    exact ⟨w, _, rfl, ⟨l, z, hinv, hL⟩, .refl⟩
  obtain ⟨v, l', hreap, hv, hva, -, -, hLv, -, hfrees⟩ :=
    World.reapZombiesInternal_spec hinv hL halive
  rw [if_neg hpid, hreap, Option.bind_some, if_neg hv.taskRing_ne_zero, hv.findPid_eq,
    Option.bind_some]
  cases hfound : l'.find? fun a => (v.sched.task a).pid = pid with
  | none => exact ⟨v, _, rfl, ⟨l', [], hv, hLv⟩, hfrees⟩
  | some a =>
    obtain ⟨ha, hapid⟩ := found_spec hfound
    have hai := hv.ne_init_of_pid hpid hapid
    dsimp only
    by_cases hcur : a = v.sched.current
    · subst hcur
      obtain ⟨s', hs', hsound⟩ := World.stopSelf_sound hv hLv ha hai
      exact ⟨_, _, by rw [if_pos rfl, hs', Option.map_some], hsound, hfrees⟩
    · obtain ⟨w', hw', hsound, hfrees'⟩ := World.stopOther_sound hv hLv hva ha hai hcur
      exact ⟨w', _, by rw [if_neg hcur, hw', Option.map_some], hsound, hfrees.trans hfrees'⟩

theorem World.taskExit_sound (hinv : Inv w.sched w.sched.zombieList l z)
    (hL : Ledger R w (l ++ z)) (halive : Alive w.sched l z) (code : Int) :
    ∃ w', w.taskExit code = some w' ∧ Sound R w' ∧ UserFrees w.user w'.user := by
  obtain ⟨v, l', hreap, hv, hva, -, -, hLv, -, hfrees⟩ :=
    World.reapZombiesInternal_spec hinv hL halive
  unfold World.taskExit
  rw [hreap, Option.map_some]
  by_cases hret : v.sched.current = 0 ∨ v.sched.current = initTask
  · rw [if_pos hret]
    exact ⟨v, rfl, ⟨l', [], hv, hLv⟩, hfrees⟩
  rw [if_neg hret]
  have h0 : v.sched.current ≠ 0 := fun he => hret (.inl he)
  have hc : v.sched.current ∈ l' := (hva.resolve_left h0).1
  obtain ⟨s', hs', hq, hinv'⟩ := exit_queued hv hc (fun he => hret (.inr he)) code
  have hmem : ∀ a, (s'.task a).userMem = (v.sched.task a).userMem := by
    rw [← hs']
    refine endCurrent_userMem ?_ h0 _
    exact fun _ => rfl
  rw [hs']
  exact ⟨_, rfl, ⟨_, _, hinv', hLv.queue hv hc hq (.inr (.inl rfl)) hmem fun _ ha => ha⟩, hfrees⟩

theorem World.taskIsAlive_sound (hinv : Inv w.sched w.sched.zombieList l z)
    (hL : Ledger R w (l ++ z)) (halive : Alive w.sched l z) (pid : Int) :
    ∃ w' r, w.taskIsAlive pid = some (w', r) ∧ Sound R w' ∧ UserFrees w.user w'.user := by
  unfold World.taskIsAlive
  by_cases hpid : pid ≤ 0
  · rw [if_pos hpid]
    exact ⟨w, _, rfl, ⟨l, z, hinv, hL⟩, .refl⟩
  obtain ⟨v, l', hreap, hv, -, -, -, hLv, -, hfrees⟩ :=
    World.reapZombiesInternal_spec hinv hL halive
  rw [if_neg hpid, hreap, Option.bind_some, if_neg hv.taskRing_ne_zero, hv.findPid_eq,
    Option.map_some]
  cases l'.find? fun a => (v.sched.task a).pid = pid with
  | none => exact ⟨v, _, rfl, ⟨l', [], hv, hLv⟩, hfrees⟩
  | some a => exact ⟨v, _, rfl, ⟨l', [], hv, hLv⟩, hfrees⟩

/-! ## Creating a task -/

section Creation

variable {v x : World} {k size : Nat}

/-- The two blocks of a creation are what the scheduler was assumed to get. -/
theorem Got.fresh_blocks (hL : Ledger R w N) (hv : Got R w 72 v t) (hx : Got R v size x k) :
    Fresh w.sched t k := by
  have htb := hv.bounds
  have hkb := hx.bounds
  have hinit := R.init_lt
  have hk := hx.fresh
  rw [hv.live, Finset.mem_insert, not_or] at hk
  unfold Fresh
  rw [← hL.alloc]
  exact ⟨fun _ => ⟨fun hm => hv.fresh (hL.kernelLive hm), by omega, by omega⟩,
    fun _ => ⟨fun hm => hk.2 (hL.kernelLive hm), hk.1, by omega⟩⟩

/-- What a creation changes once it has its blocks: the frame goes somewhere into
the new stack. -/
theorem World.addTask_eq {c : Malloc.Client Malloc.Kernel.KHeap} {m : Finset Nat}
    (hx : x = { w with kernel := c, made := m }) (hfits : StackFits k (kstackSize size))
    (hk : k + Malloc.alignUp (kstackSize size) < 2 ^ 64) (entry mem memSize t : Nat) :
    ∃ sp bs, (k ≤ sp ∧ sp + bs.length ≤ k + Malloc.alignUp (kstackSize size)) ∧
      (x.addTask entry size mem memSize t k).1 =
        { w with
          sched := (Multitask.createTask w.sched entry size mem memSize t k).1
          kernel := writeKernel c sp bs
          made := m
          handed := if mem = 0 then w.handed else insert mem w.handed
          blocks := Function.update w.blocks (w.sched.created + 1) ⟨t, k, mem⟩ } := by
  have hinside := frame_inside hfits (Nat.le_of_lt hk) w.sched.stack entry
  have hle := Malloc.le_alignUp hfits.2
  rw [hx]
  refine ⟨_, frameBytes entry ((k + kstackSize size) % 2 ^ 64), ⟨hinside.1, ?_⟩, rfl⟩
  rw [frameBytes_length]
  omega

theorem World.addTask_sound (hinv : Inv w.sched w.sched.zombieList l z) (hL : Ledger R w (l ++ z))
    (hv : Got R w 72 v t) (hx : Got R v (kstackSize size) x k) (ht0 : t ≠ 0) (hk0 : k ≠ 0)
    (hfits : StackFits k (kstackSize size)) (entry mem memSize : Nat)
    (huser : mem = 0 ∨ mem ∈ w.user.live ∧ mem ∉ w.handed) :
    Sound R (x.addTask entry size mem memSize t k).1 := by
  have hfresh := Got.fresh_blocks hL hv hx
  have hm := hinv.made entry size mem memSize ht0 hk0 hfresh
  obtain ⟨-, -, hmem, -⟩ := createTask_new w.sched entry size mem memSize ht0 hk0
  have hinv' := hinv.create hm ht0 hk0 hfresh
  have hworld : x = { w with kernel := x.kernel, made := insert k (insert t w.made) } := by
    have h1 := hv.world
    have h2 := hx.world
    rw [h1] at h2
    exact h2
  have hk := hx.fresh
  rw [hv.live, Finset.mem_insert, not_or] at hk
  obtain ⟨sp, bs, hinside, heq⟩ := World.addTask_eq hworld hfits hx.bounds.2 entry mem memSize t
  have hlive : (writeKernel x.kernel sp bs).live = insert k (insert t w.kernel.live) := by
    show x.kernel.live = _
    rw [hx.live, hv.live]
  have hL' := hL.enter hinv hm hmem ⟨hv.fresh, hk.2, Ne.symm hk.1⟩ huser (hx.written hinside) hlive
  rw [heq]
  exact ⟨l ++ [t], z, hinv', hL'⟩

/-- A creation that did not get its blocks: of what is in use nothing changes. -/
structure Declined (w w' : World) : Prop where
  sched : w'.sched = w.sched
  user : w'.user = w.user
  kernelLive : w'.kernel.live = w.kernel.live
  handed : w'.handed = w.handed

theorem World.createTask_sound (hinv : Inv w.sched w.sched.zombieList l z)
    (hL : Ledger R w (l ++ z)) (hfits : FrameFits R w size) (hno : NoGrowth R w size)
    (entry mem memSize : Nat) (huser : mem = 0 ∨ mem ∈ w.user.live ∧ mem ∉ w.handed) :
    ∃ w' r, w.createTask R entry size mem memSize = some (w', r) ∧ Sound R w' ∧
      (r = 0 ∧ Declined w w' ∨ ∃ t k, t ≠ 0 ∧ k ≠ 0 ∧ Fresh w.sched t k ∧ w'.user = w.user ∧
        (w'.sched, r) = Multitask.createTask w.sched entry size mem memSize t k) := by
  unfold World.createTask
  rcases World.malloc_cases hL.kernelHeap hno.1 with hnull | ⟨v, t, hv, ht0, hgot⟩
  · rw [hnull]
    exact ⟨w, 0, rfl, ⟨l, z, hinv, hL⟩, .inl ⟨rfl, rfl, rfl, rfl, rfl⟩⟩
  obtain ⟨bl, hbl, -⟩ := hgot.heap
  rw [hv, Option.bind_some]
  dsimp only
  rw [if_neg ht0]
  rcases World.malloc_cases ⟨bl, hbl⟩ (hno.2 _ hv ht0) with hnull | ⟨x, k, hx, hk0, hgot'⟩
  · obtain ⟨hsched, huser', hlive, hL'⟩ := hgot.rollback hL
    have hhanded : (v.free t).handed = w.handed := by
      show v.handed = w.handed
      rw [hgot.world]
    rw [hnull, Option.map_some, if_pos rfl]
    refine ⟨v.free t, 0, rfl, ⟨l, z, ?_, hL'⟩, .inl ⟨rfl, hsched, huser', hlive, hhanded⟩⟩
    rw [hsched]
    exact hinv
  · have hsched : x.sched = w.sched := by rw [hgot'.world, hgot.world]
    have huser' : x.user = w.user := by rw [hgot'.world, hgot.world]
    rw [hx, Option.map_some, if_neg hk0]
    refine ⟨_, _, rfl, World.addTask_sound hinv hL hgot hgot' ht0 hk0 (hfits _ hv ht0 _ hx hk0)
      entry mem memSize huser, .inr ⟨t, k, ht0, hk0, Got.fresh_blocks hL hgot hgot', huser', ?_⟩⟩
    rw [← hsched]

theorem World.createTask_user (hinv : Inv w.sched w.sched.zombieList l z)
    (hL : Ledger R w (l ++ z)) (hfits : FrameFits R w size) (hno : NoGrowth R w size)
    {entry mem memSize : Nat} (huser : mem = 0 ∨ mem ∈ w.user.live ∧ mem ∉ w.handed) {r : Int}
    (hw' : w.createTask R entry size mem memSize = some (w', r)) : w'.user = w.user := by
  obtain ⟨v, q, hv, -, hcase⟩ := World.createTask_sound hinv hL hfits hno entry mem memSize huser
  rw [hw'] at hv
  obtain ⟨rfl, rfl⟩ := Prod.mk.inj (Option.some.inj hv)
  rcases hcase with ⟨-, hdeclined⟩ | ⟨t, k, -, -, -, hsame, -⟩
  · exact hdeclined.user
  · exact hsame

/-- A creation that gets a record and no stack. -/
theorem World.createTask_rollback (hL : Ledger R w N) (hno : NoGrowth R w size)
    (hv : w.malloc R 72 = some (v, t)) (ht0 : t ≠ 0)
    (hx : v.malloc R (kstackSize size) = some (x, 0)) (entry mem memSize : Nat) :
    ∃ w', w.createTask R entry size mem memSize = some (w', 0) ∧ w'.sched = w.sched ∧
      w'.kernel.live = w.kernel.live ∧ w'.user.live = w.user.live := by
  have hgot := got_of_malloc hL.kernelHeap hno.1 hv ht0
  obtain ⟨bl, hbl, -⟩ := hgot.heap
  have hsame : x = v := by
    rcases World.malloc_cases ⟨bl, hbl⟩ (hno.2 _ hv ht0) with hnull | ⟨y, k, hy, hk0, -⟩
    · rw [hx] at hnull
      exact (Prod.mk.inj (Option.some.inj hnull)).1
    · rw [hx] at hy
      exact absurd (Prod.mk.inj (Option.some.inj hy)).2.symm hk0
  obtain ⟨hsched, huser, hlive, -⟩ := hgot.rollback hL
  refine ⟨v.free t, ?_, hsched, hlive, by rw [huser]⟩
  unfold World.createTask
  rw [hv, Option.bind_some]
  dsimp only
  rw [if_neg ht0, hx, Option.map_some, if_pos rfl, hsame]

end Creation

/-! ## Other clients of the heaps -/

/-- A call that spares the blocks in `S` leaves them live. -/
theorem live_of_spares {σ : Type} {A : Malloc.Allocator σ} {c c' : Malloc.Client σ} {o : Malloc.Op}
    (hs : A.step c o = some c') {S : Finset Nat} (ho : Spares S o) (hS : S ⊆ c.live) :
    S ⊆ c'.live := by
  have herase : ∀ p, p ∉ S → S ⊆ c.live.erase p := fun p hp q hq =>
    Finset.mem_erase.mpr ⟨fun he => hp (he ▸ hq), hS hq⟩
  cases o with
  | malloc n =>
    obtain ⟨r, -, rfl⟩ := Option.map_eq_some_iff.mp hs
    dsimp only
    split
    · exact hS
    · exact hS.trans (Finset.subset_insert _ _)
  | free p =>
    obtain rfl := Option.some.inj hs
    exact herase p ho
  | realloc p n =>
    obtain ⟨r, -, rfl⟩ := Option.map_eq_some_iff.mp hs
    dsimp only [Malloc.liveAfterRealloc]
    split
    · exact (herase p ho).trans (Finset.subset_insert _ _)
    · split
      · exact herase p ho
      · exact hS
  | write p off bs =>
    obtain rfl := Option.some.inj hs
    exact hS

/-! ## Runs -/

theorem World.step_sound (h : Sound R w) {o : Call} (ho : w.Permitted R o) :
    ∃ w', World.step R w o = some w' ∧ Sound R w' := by
  obtain ⟨l, z, hinv, hL⟩ := h
  cases o with
  | taskCreate entry size =>
    obtain ⟨-, hfits, hno⟩ := ho
    obtain ⟨w', r, hw', hsound, -⟩ := World.createTask_sound hinv hL hfits hno entry 0 0 (.inl rfl)
    exact ⟨w', by rw [World.step, World.taskCreate, hw', Option.map_some], hsound⟩
  | utaskCreate entry size mem memSize =>
    obtain ⟨-, hfits, hno, huser⟩ := ho
    obtain ⟨w', r, hw', hsound, -⟩ :=
      World.createTask_sound hinv hL hfits hno entry mem memSize (.inr huser)
    exact ⟨w', by rw [World.step, World.utaskCreate, hw', Option.map_some], hsound⟩
  | tick regs =>
    obtain ⟨s', out, hs', hq, -, hmem⟩ := scheduleFromIsr_picks hinv regs
    refine ⟨{ w with sched := s' }, by rw [World.step, hs', Option.map_some], l, z, ?_, ?_⟩
    · show Inv s' s'.zombieList l z
      rw [hq.zombieList]
      exact hinv.quiet hq (.inr (.inl hmem))
    · exact hL.resched (hq.sameTasks (scheduleFromIsr_userMem hs')) fun _ ha => ha
  | taskStop pid =>
    obtain ⟨w', r, hw', hsound, -⟩ := World.taskStop_sound hinv hL (hinv.alive ho) pid
    exact ⟨w', by rw [World.step, hw', Option.map_some], hsound⟩
  | taskExit code =>
    obtain ⟨w', hw', hsound, -⟩ := World.taskExit_sound hinv hL (hinv.alive ho) code
    exact ⟨w', hw', hsound⟩
  | reapZombies =>
    obtain ⟨w', l', hw', hinv', -, -, -, hL', -⟩ :=
      World.reapZombiesInternal_spec hinv hL (hinv.alive ho)
    exact ⟨w', hw', l', [], hinv', hL'⟩
  | taskIsAlive pid =>
    obtain ⟨w', r, hw', hsound, -⟩ := World.taskIsAlive_sound hinv hL (hinv.alive ho) pid
    exact ⟨w', by rw [World.step, hw', Option.map_some], hsound⟩
  | kernelHeap o =>
    obtain ⟨hperm, hno, hspares⟩ := ho
    obtain ⟨bl, hbl⟩ := hL.kernelHeap
    obtain ⟨c', bl', hc', hbl'⟩ := Malloc.Kernel.kernel_step hbl hperm hno
    exact ⟨{ w with kernel := c' }, by rw [World.step, hc', Option.map_some], l, z, hinv,
      hL.withKernel ⟨bl', hbl'⟩ (live_of_spares hc' hspares hL.kernelLive)⟩
  | userHeap o =>
    obtain ⟨hperm, hspares⟩ := ho
    obtain ⟨bl, hbl⟩ := hL.userHeap
    obtain ⟨c', bl', hc', hbl'⟩ := Malloc.user_step hbl hperm
    exact ⟨{ w with user := c' }, by rw [World.step, hc', Option.map_some], l, z, hinv,
      hL.withUser ⟨bl', hbl'⟩ (live_of_spares hc' hspares hL.userLive)⟩

theorem World.start_sound (R : HeapRegions) (task : Nat → Task) (stack : Nat → Nat) (mk mu : Mem) :
    Sound R (World.start R task stack mk mu) := by
  have hnone : ∀ u, u ∉ holders (Multitask.start task stack) := by
    rintro u ⟨h0, hpres⟩
    simp [Multitask.start, schedulerInit, h0, Present] at hpres
  have hgone : ∀ u, ¬ Gone ((Multitask.start task stack).fate u) := by
    intro u hu
    by_cases h0 : u = 0 <;> simp [Multitask.start, schedulerInit, h0, Gone] at hu
  refine ⟨[initTask], [], start_inv task stack, ⟨⟨⟨_, Malloc.Kernel.kernelStart_holds R.kernel mk⟩,
    ⟨_, Malloc.userStart_holds R.user mu⟩, .empty hnone, fun u hu => absurd hu (hnone u),
    Finset.empty_subset _, .empty hnone, Finset.empty_subset _, ?_⟩, rfl, fun a ha hai => ?_⟩⟩
  · refine ⟨fun e he => absurd he List.not_mem_nil, List.nodup_nil, fun u r => ?_⟩
    exact ⟨fun hm => absurd hm List.not_mem_nil, fun hm => absurd hm.1 (hgone u)⟩
  · exact absurd (by simpa using ha) hai

theorem World.run_sound {task : Nat → Task} {stack : Nat → Nat} {mk mu : Mem} {os : List Call}
    (hr : Run (World.step R) (World.Permitted R) (World.start R task stack mk mu) os w) :
    Sound R w :=
  hr.keeps (fun _ _ hw ho => World.step_sound hw ho) (World.start_sound R task stack mk mu)

/-- After `reap_zombies` no task that has ended holds a block: `w'` is the state
after the call in `w`. -/
structure Reclaimed (w w' : World) : Prop where
  noZombie : w'.sched.zombieList = 0
  live : ∀ u ∈ holders w'.sched, w'.sched.fate u = .live
  /-- The blocks of the zombies are free. -/
  zombies : ∀ u ∈ holders w.sched, w.sched.fate u ≠ .live →
    (∀ p ∈ (w.blocks u).kernel, p ∉ w'.kernel.live) ∧ ∀ p ∈ (w.blocks u).user, p ∉ w'.user.live

theorem World.reapZombies_reclaimed (h : Sound R w) (he : ¬ Ended w.sched) :
    ∃ w', w.reapZombies = some w' ∧ Conserved R w' ∧ Reclaimed w w' := by
  obtain ⟨l, z, hinv, hL⟩ := h
  obtain ⟨w', l', hw', hinv', -, hzero, hreaped, hL', htrim, -⟩ :=
    World.reapZombiesInternal_spec hinv hL (hinv.alive he)
  have hlive : ∀ u ∈ holders w'.sched, w'.sched.fate u = .live := by
    rintro u ⟨-, hpres⟩
    obtain ⟨a, ha, rfl⟩ := hinv'.fates.complete u hpres
    rw [hinv'.fates.known a ha, fateOf, if_neg List.not_mem_nil]
  -- the tasks that are left lived before
  have hleft : ∀ v ∈ holders w'.sched, w.sched.fate v = .live := fun v hv =>
    (hreaped.live v).mp (hlive v hv)
  have hsub : ∀ v ∈ holders w'.sched, v ∈ holders w.sched := fun v hv =>
    ⟨hv.1, .inl (hleft v hv)⟩
  have hkernel := hL'.kernel
  have huser := hL'.user
  rw [htrim.blocks] at hkernel huser
  refine ⟨w', hw', hL'.toConserved, hzero, hlive, fun u hu hdead => ?_⟩
  have hgone : u ∉ holders w'.sched := fun hm => hdead (hleft u hm)
  refine ⟨fun p hp hpl => ?_, fun p hp hpl => ?_⟩
  · exact hL.kernel.notMem_of_left hkernel hsub hu hgone hp
      (((htrim.kernel p).mp hpl).2 (hL.kernel.share_mem hu hp))
  · exact hL.user.notMem_of_left huser hsub hu hgone hp
      (((htrim.user p).mp hpl).2 (hL.user.share_mem hu hp))

/-- In every state that is reached, the kernel blocks that creations allocated
and that are not freed are a record and a stack for each created task that was
neither stopped by another one nor reaped, and the user blocks handed over are
those of the same tasks. The blocks of the other tasks were released, each once.
After `reap_zombies` no task that has ended holds a block. A creation that gets
no stack changes no live set and nothing of the scheduler. And every call that
may be made returns. -/
theorem resource_conservation (R : HeapRegions) (task : Nat → Task) (stack : Nat → Nat)
    (mk mu : Mem) {os : List Call} {w : World}
    (hr : Run (World.step R) (World.Permitted R) (World.start R task stack mk mu) os w) :
    Conserved R w ∧
    (¬ Ended w.sched → ∃ w', w.reapZombies = some w' ∧ Conserved R w' ∧ Reclaimed w w') ∧
    (∀ entry size mem memSize v t x, NoGrowth R w size → w.malloc R 72 = some (v, t) → t ≠ 0 →
      v.malloc R (kstackSize size) = some (x, 0) →
      ∃ w', w.createTask R entry size mem memSize = some (w', 0) ∧ w'.sched = w.sched ∧
        w'.kernel.live = w.kernel.live ∧ w'.user.live = w.user.live) ∧
    ∀ o, w.Permitted R o → ∃ w', World.step R w o = some w' := by
  have hsound := World.run_sound hr
  obtain ⟨l, z, -, hL⟩ := World.run_sound hr
  refine ⟨hL.toConserved, World.reapZombies_reclaimed hsound, ?_, fun o ho => ?_⟩
  · intro entry size mem memSize v t x hno hv ht0 hx
    exact World.createTask_rollback hL hno hv ht0 hx entry mem memSize
  · obtain ⟨w', hw', -⟩ := World.step_sound hsound ho
    exact ⟨w', hw'⟩

/-- Of the user heap the scheduler only frees live blocks; what else happens to
it is a client's call. -/
theorem World.step_user (h : Sound R w) {o : Call} (ho : w.Permitted R o)
    (hs : World.step R w o = some w') :
    UserFrees w.user w'.user ∨
      ∃ o', o = .userHeap o' ∧ (Malloc.user R.user).step w.user o' = some w'.user := by
  obtain ⟨l, z, hinv, hL⟩ := h
  cases o with
  | taskCreate entry size =>
    obtain ⟨-, hfits, hno⟩ := ho
    obtain ⟨r, hr, rfl⟩ := Option.map_eq_some_iff.mp hs
    exact .inl (World.createTask_user hinv hL hfits hno (.inl rfl) hr ▸ .refl)
  | utaskCreate entry size mem memSize =>
    obtain ⟨-, hfits, hno, huser⟩ := ho
    obtain ⟨r, hr, rfl⟩ := Option.map_eq_some_iff.mp hs
    exact .inl (World.createTask_user hinv hL hfits hno (.inr huser) hr ▸ .refl)
  | tick regs =>
    obtain ⟨r, -, rfl⟩ := Option.map_eq_some_iff.mp hs
    exact .inl .refl
  | taskStop pid =>
    obtain ⟨v, r, hv, -, hfrees⟩ := World.taskStop_sound hinv hL (hinv.alive ho) pid
    rw [World.step, hv, Option.map_some] at hs
    obtain rfl := Option.some.inj hs
    exact .inl hfrees
  | taskExit code =>
    obtain ⟨v, hv, -, hfrees⟩ := World.taskExit_sound hinv hL (hinv.alive ho) code
    rw [World.step, hv] at hs
    obtain rfl := Option.some.inj hs
    exact .inl hfrees
  | reapZombies =>
    obtain ⟨v, l', hv, -, -, -, -, -, -, hfrees⟩ :=
      World.reapZombiesInternal_spec hinv hL (hinv.alive ho)
    rw [World.step, World.reapZombies, hv] at hs
    obtain rfl := Option.some.inj hs
    exact .inl hfrees
  | taskIsAlive pid =>
    obtain ⟨v, r, hv, -, hfrees⟩ := World.taskIsAlive_sound hinv hL (hinv.alive ho) pid
    rw [World.step, hv, Option.map_some] at hs
    obtain rfl := Option.some.inj hs
    exact .inl hfrees
  | kernelHeap o =>
    obtain ⟨c, -, rfl⟩ := Option.map_eq_some_iff.mp hs
    exact .inl .refl
  | userHeap o =>
    obtain ⟨c, hc, rfl⟩ := Option.map_eq_some_iff.mp hs
    exact .inr ⟨o, rfl, hc⟩

/-! ## A run -/

instance (k n : Nat) : Decidable (StackFits k n) := inferInstanceAs (Decidable (_ ∧ _))

instance (R : HeapRegions) (w : World) (n : Nat) : Decidable (FrameFits R w n) :=
  inferInstanceAs (Decidable (∀ r ∈ w.malloc R 72, r.2 ≠ 0 → ∀ q ∈ r.1.malloc R (kstackSize n),
    q.2 ≠ 0 → StackFits q.2 (kstackSize n)))

instance (R : HeapRegions) (w : World) (n : Nat) : Decidable (NoGrowth R w n) :=
  inferInstanceAs (Decidable (_ ∧ _))

instance (S : Finset Nat) : (o : Malloc.Op) → Decidable (Spares S o)
  | .malloc _ => inferInstanceAs (Decidable True)
  | .free p => inferInstanceAs (Decidable (p ∉ S))
  | .realloc p _ => inferInstanceAs (Decidable (p ∉ S))
  | .write _ _ _ => inferInstanceAs (Decidable True)

instance (R : HeapRegions) (w : World) : (o : Call) → Decidable (w.Permitted R o)
  | .taskCreate _ _ => inferInstanceAs (Decidable (_ ∧ _))
  | .utaskCreate _ _ _ _ => inferInstanceAs (Decidable (_ ∧ _))
  | .tick _ => inferInstanceAs (Decidable True)
  | .taskStop _ => inferInstanceAs (Decidable (¬ Ended w.sched))
  | .taskExit _ => inferInstanceAs (Decidable (¬ Ended w.sched))
  | .reapZombies => inferInstanceAs (Decidable (¬ Ended w.sched))
  | .taskIsAlive _ => inferInstanceAs (Decidable (¬ Ended w.sched))
  | .kernelHeap _ => inferInstanceAs (Decidable (_ ∧ _))
  | .userHeap _ => inferInstanceAs (Decidable (_ ∧ _))

/-- Two heaps of 128 MiB, one behind the other. -/
def heaps128 : HeapRegions :=
  ⟨Malloc.region128, ⟨0x8200000, 0x10200000, by decide, by decide, by decide⟩, by decide⟩

/-- A task with user memory and two without; a stack that is too large. The first
task stops the second and exits. -/
def resourceDemo : List Call :=
  [.userHeap (.malloc 100), .utaskCreate 0x1000 16384 0x8200028 100, .taskCreate 0x2000 0,
    .taskCreate 0x3000 0, .taskCreate 0x4000 0x8000000, .tick 0x300000, .taskStop 2, .taskExit 7,
    .tick 0x300100]

theorem resource_conservation_demo :
    ∃ w, Run (World.step heaps128) (World.Permitted heaps128)
        (World.start heaps128 (fun _ => noTask) (fun _ => 0) (fun _ => 0) fun _ => 0)
        resourceDemo w ∧
      w.made = {0x200028, 0x200098, 0x206158, 0x2061c8} ∧ w.handed = {0x8200028} ∧
      Conserved heaps128 w ∧
      ∃ w', w.reapZombies = some w' ∧ Conserved heaps128 w' ∧ Reclaimed w w' := by
  have hexec : (exec (World.step heaps128) (World.Permitted heaps128)
      (World.start heaps128 (fun _ => noTask) (fun _ => 0) (fun _ => 0) fun _ => 0)
      resourceDemo).map (fun w => (w.made, w.handed, decide (Ended w.sched))) =
      some ({0x200028, 0x200098, 0x206158, 0x2061c8}, {0x8200028}, false) := by
    decide +kernel
  obtain ⟨w, hw, hval⟩ := Option.map_eq_some_iff.mp hexec
  obtain ⟨hmade, hval⟩ := Prod.mk.inj hval
  obtain ⟨hhanded, hended⟩ := Prod.mk.inj hval
  have hrun := Run.of_exec hw
  obtain ⟨hcons, hreap, -⟩ := resource_conservation heaps128 (fun _ => noTask) (fun _ => 0)
    (fun _ => 0) (fun _ => 0) hrun
  exact ⟨w, hrun, hmade, hhanded, hcons, hreap (of_decide_eq_false hended)⟩

/-! ## Without the heaps -/

namespace World

theorem freeTaskResources_sched (w : World) (t : Nat) (f : Fate) :
    (w.freeTaskResources t f).sched = Multitask.freeTaskResources w.sched t f :=
  rfl

theorem reapLoop_sched (k : Nat) (w : World) (z : Nat) :
    (reapLoop k w z).map World.sched = Multitask.reapLoop k w.sched z := by
  induction k generalizing w z with
  | zero => rfl
  | succ k ih =>
    rw [reapLoop, Multitask.reapLoop]
    split
    · rfl
    · cases unlinkFromRing w.sched z with
      | none => rfl
      | some r => exact ih _ _

theorem reapZombiesInternal_sched (w : World) :
    w.reapZombiesInternal.map World.sched = Multitask.reapZombiesInternal w.sched := by
  unfold reapZombiesInternal Multitask.reapZombiesInternal
  rw [reapLoop_sched]

theorem stopOther_sched (w : World) (t : Nat) :
    (w.stopOther t).map World.sched = Multitask.stopOther w.sched t := by
  unfold stopOther Multitask.stopOther
  cases unlinkFromRing w.sched t with
  | none => rfl
  | some r =>
    rw [Option.bind_some, Option.bind_some, reapZombiesInternal_sched, freeTaskResources_sched]

theorem taskStop_sched (w : World) (pid : Int) :
    (w.taskStop pid).map (fun r => r.1.sched) = (Multitask.taskStop w.sched pid).map Prod.fst := by
  unfold taskStop Multitask.taskStop
  split
  · rfl
  rw [← reapZombiesInternal_sched]
  cases w.reapZombiesInternal with
  | none => rfl
  | some v =>
    simp only [Option.map_some, Option.bind_some]
    split
    · rfl
    cases findPid v.sched pid with
    | none => rfl
    | some found =>
      cases found with
      | none => rfl
      | some a =>
        simp only [Option.bind_some]
        split
        · cases stopSelf v.sched <;> rfl
        · rw [← stopOther_sched]
          cases v.stopOther a <;> rfl

theorem taskExit_sched (w : World) (code : Int) :
    (w.taskExit code).map World.sched = Multitask.taskExit w.sched code := by
  unfold taskExit Multitask.taskExit
  rw [← reapZombiesInternal_sched]
  cases w.reapZombiesInternal with
  | none => rfl
  | some v =>
    simp only [Option.map_some]
    split <;> rfl

theorem taskIsAlive_sched (w : World) (pid : Int) :
    (w.taskIsAlive pid).map (fun r => r.1.sched) =
      (Multitask.taskIsAlive w.sched pid).map Prod.fst := by
  unfold taskIsAlive Multitask.taskIsAlive
  split
  · rfl
  rw [← reapZombiesInternal_sched]
  cases w.reapZombiesInternal with
  | none => rfl
  | some v =>
    simp only [Option.map_some, Option.bind_some]
    split
    · rfl
    cases findPid v.sched pid with
    | none => rfl
    | some found => cases found <;> rfl

/-- A call is one of the scheduler, with blocks that it may get, or none. -/
theorem step_sched (h : Sound R w) {o : Call} (ho : w.Permitted R o)
    (hs : World.step R w o = some w') :
    w'.sched = w.sched ∨
      ∃ o', Multitask.Permitted w.sched o' ∧ Multitask.step w.sched o' = some w'.sched := by
  obtain ⟨l, z, hinv, hL⟩ := h
  cases o with
  | taskCreate entry size =>
    obtain ⟨he, hfits, hno⟩ := ho
    obtain ⟨v, r, hv, -, hcase⟩ := createTask_sound hinv hL hfits hno entry 0 0 (.inl rfl)
    rw [step, taskCreate, hv, Option.map_some] at hs
    obtain rfl := Option.some.inj hs
    refine hcase.imp (fun hdeclined => hdeclined.2.sched) ?_
    rintro ⟨t, k, -, -, hfresh, -, hpair⟩
    exact ⟨.taskCreate entry size t k, ⟨hfresh, fun _ => he⟩,
      congrArg (fun r : Sched × Int => some r.1) hpair.symm⟩
  | utaskCreate entry size mem memSize =>
    obtain ⟨he, hfits, hno, huser⟩ := ho
    obtain ⟨v, r, hv, -, hcase⟩ := createTask_sound hinv hL hfits hno entry mem memSize (.inr huser)
    rw [step, utaskCreate, hv, Option.map_some] at hs
    obtain rfl := Option.some.inj hs
    refine hcase.imp (fun hdeclined => hdeclined.2.sched) ?_
    rintro ⟨t, k, -, -, hfresh, -, hpair⟩
    exact ⟨.utaskCreate entry size mem memSize t k, ⟨hfresh, fun _ => he⟩,
      congrArg (fun r : Sched × Int => some r.1) hpair.symm⟩
  | tick regs =>
    obtain ⟨r, hr, rfl⟩ := Option.map_eq_some_iff.mp hs
    exact .inr ⟨.tick regs, ⟨trivial, fun hf => by cases hf⟩, by rw [Multitask.step, hr]; rfl⟩
  | taskStop pid =>
    obtain ⟨r, hr, rfl⟩ := Option.map_eq_some_iff.mp hs
    have heq := taskStop_sched w pid
    rw [hr] at heq
    exact .inr ⟨.taskStop pid, ⟨trivial, fun _ => ho⟩, heq.symm⟩
  | taskExit code =>
    have heq := taskExit_sched w code
    have hw : w.taskExit code = some w' := hs
    rw [hw] at heq
    exact .inr ⟨.taskExit code, ⟨trivial, fun _ => ho⟩, heq.symm⟩
  | reapZombies =>
    have heq := reapZombiesInternal_sched w
    have hw : w.reapZombiesInternal = some w' := hs
    rw [hw] at heq
    exact .inr ⟨.reapZombies, ⟨trivial, fun _ => ho⟩, heq.symm⟩
  | taskIsAlive pid =>
    obtain ⟨r, hr, rfl⟩ := Option.map_eq_some_iff.mp hs
    have heq := taskIsAlive_sched w pid
    rw [hr] at heq
    exact .inr ⟨.taskIsAlive pid, ⟨trivial, fun _ => ho⟩, heq.symm⟩
  | kernelHeap o =>
    obtain ⟨c, -, rfl⟩ := Option.map_eq_some_iff.mp hs
    exact .inl rfl
  | userHeap o =>
    obtain ⟨c, -, rfl⟩ := Option.map_eq_some_iff.mp hs
    exact .inl rfl

/-- What is proved of the runs of the scheduler holds when it runs on the heaps. -/
theorem run_sched {task : Nat → Task} {stack : Nat → Nat} {mk mu : Mem} {os : List Call}
    (hr : Run (World.step R) (World.Permitted R) (World.start R task stack mk mu) os w) :
    ∃ os', Run Multitask.step Multitask.Permitted (Multitask.start task stack) os' w.sched := by
  refine hr.simulates (I := Sound R) (f := World.sched) (fun w o w' hw ho hs => ?_)
    (start_sound R task stack mk mu)
  obtain ⟨v, hv, hsound⟩ := step_sound hw ho
  rw [hs] at hv
  obtain rfl := Option.some.inj hv
  exact ⟨hsound, step_sched hw ho hs⟩

end World

end KernelC.Multitask
