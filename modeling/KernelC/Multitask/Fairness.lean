import KernelC.Lib.Turns
import KernelC.Multitask.Runs
import Mathlib.Data.Finset.Card

/-!
# No task waits for ever

The tasks that live stand in the ring in the order in which they come to their turn
(`InOrder`). Every call changes this queue as `Turns` allows it: a tick serves its first task,
a new task comes in somewhere, and tasks that end drop out. So no task is overtaken twice.
-/

namespace KernelC.Multitask

/-! ## The queue -/

/-- Of the tasks `w` those that live, by their serial numbers. -/
def waits (s : Sched) (w : List Nat) : List Nat :=
  (w.map fun a => (s.task a).uid).filter fun u => s.fate u = .live

/-- The tasks that live, in the order in which they come to their turn behind the one that
runs. -/
def InOrder (s : Sched) (q : List Nat) : Prop :=
  ∃ l z w, Inv s s.zombieList l z ∧ Cycle s.next (s.next s.running) w ∧ w.Perm l ∧
    waits s w = q

/-- Whose turn it is after the call, if that was a tick. -/
def Op.turn (s : Sched) (o : Op) : List Nat :=
  if o.isTick then [(s.task s.current).uid] else []

/-- The turns of a run, in order. -/
def turns (s : Sched) : List Op → List Nat
  | [] => []
  | o :: os =>
    match step s o with
    | none => []
    | some s' => o.turn s' ++ turns s' os

/-- The tasks that were created between `s` and `s'`. -/
def newcomers (s s' : Sched) : List Nat := List.range' (s.created + 1) (s'.created - s.created)

variable {s s' : Sched} {head t : Nat} {l l' z z' w q : List Nat}

theorem mem_waits {v : Nat} :
    v ∈ waits s w ↔ (∃ a ∈ w, (s.task a).uid = v) ∧ s.fate v = .live := by
  simp [waits]

/-- Among the tasks in the ring those that live can run. -/
theorem Inv.live_iff (h : Inv s head l z) {a : Nat} (ha : a ∈ l) :
    s.fate (s.task a).uid = .live ↔ runnable s a = true := by
  rw [h.fates.known a (List.mem_append_left _ ha), fateOf]
  by_cases haz : a ∈ z
  · simp [haz, ha, runnable, h.lists.ended a haz, TaskState.canRun]
  · simp [haz, h.lists.ready a ha haz]

theorem Inv.waits_eq (h : Inv s head l z) (hw : w ⊆ l) :
    waits s w = (w.filter (runnable s)).map fun a => (s.task a).uid := by
  rw [waits, List.filter_map]
  congr 1
  refine List.filter_congr fun a ha => ?_
  simp only [Function.comp_apply]
  rw [Bool.eq_iff_iff, decide_eq_true_eq, h.live_iff (hw ha)]

/-- The running task is in the ring, unless it has ended. -/
theorem Inv.running_mem (h : Inv s head l z) (halive : Alive s l z) : s.running ∈ l := by
  unfold Sched.running
  split
  · exact h.lists.init
  · next h0 => exact (halive.resolve_left h0).1

/-- The order behind the running task, and what is before and behind it in the ring. -/
theorem Inv.order_split (h : Inv s head l z) (hrun : s.running ∈ l)
    (hw : Cycle s.next (s.next s.running) w) (hperm : w.Perm l) :
    ∃ a b, l = a ++ s.running :: b ∧ w = b ++ (a ++ [s.running]) := by
  obtain ⟨a, b, rfl⟩ := List.append_of_mem hrun
  refine ⟨a, b, rfl, ?_⟩
  exact (hw.ring (hperm.mem_iff.mpr hrun)).unique h.lists.ring.turn

/-! ## A tick -/

theorem tick_turns {regs : Nat} (h : InOrder s q) (hs : step s (.tick regs) = some s') :
    ∃ r, q = (s'.task s'.current).uid :: r ∧ InOrder s' (r ++ [(s'.task s'.current).uid]) ∧
      s'.created = s.created := by
  obtain ⟨l, z, w, hinv, hw, hperm, rfl⟩ := h
  obtain ⟨u, out, hcall, hq, hpick, hmem⟩ := scheduleFromIsr_picks hinv regs
  obtain rfl : u = s' := by
    rw [step, hcall, Option.map_some] at hs
    exact Option.some.inj hs
  have hinit := hinv.lists.ready _ hinv.lists.init hinv.lists.initLive
  have hsave := saveCurrent_quiet hinit regs
  obtain ⟨hsaved, hrunning⟩ := hinv.saveCurrent regs
  have hrun : ∀ {v}, Quiet s v → runnable v = runnable s := fun hv => funext hv.canRun
  have hfind : w.find? (runnable s) = some u.current := by
    have heq := pickNext_eq hsaved hrunning (w := w)
      (by rw [hsave.next, saveCurrent_current]; exact hw) hperm
    rw [hpick, hrun hsave] at heq
    exact (Option.some.inj heq).symm
  obtain ⟨hcan, a, b, rfl, hbefore⟩ := List.find?_eq_some_iff_append.mp hfind
  have ha : a.filter (runnable s) = [] :=
    List.filter_eq_nil_iff.mpr fun x hx => by simpa using hbefore x hx
  have hu0 := hinv.owned.nonnull _ (List.mem_append_left _ hmem)
  have hrunning' : u.running = u.current := by
    unfold Sched.running
    rw [if_neg hu0]
  have hinv' : Inv u u.zombieList l z := by
    rw [hq.zombieList]
    exact hinv.quiet hq (.inr (.inl hmem))
  have hperm' : (b ++ a ++ [u.current]).Perm l := by
    refine List.Perm.trans ?_ hperm
    rw [List.append_assoc]
    exact List.perm_append_comm.trans (by simp)
  have huid : (fun x => (u.task x).uid) = fun x => (s.task x).uid := funext hq.uid
  refine ⟨waits s b, ?_, ⟨l, z, b ++ a ++ [u.current], hinv', ?_, hperm', ?_⟩, hq.created⟩
  · have hb : b ⊆ l := fun x hx => hperm.subset (by simp [hx])
    rw [hinv.waits_eq hperm.subset, hinv.waits_eq hb, List.filter_append, ha, List.nil_append,
      List.filter_cons_of_pos hcan, List.map_cons, hq.uid]
  · rw [hrunning', hq.next]
    exact hw.turn
  · have hb : b ⊆ l := fun x hx => hperm.subset (by simp [hx])
    rw [hinv'.waits_eq hperm'.subset, hinv.waits_eq hb, hrun hq, huid, List.filter_append,
      List.filter_append, ha, List.append_nil, List.filter_cons_of_pos hcan, List.filter_nil,
      List.map_append, List.map_singleton, hq.uid]

/-! ## A creation -/

theorem create_turns (h : InOrder s q) (halive : ¬ Ended s) (entry size mem memSize : Nat)
    {kstack : Nat} (ht0 : t ≠ 0) (hk0 : kstack ≠ 0) (hfresh : Fresh s t kstack)
    (hs : (createTask s entry size mem memSize t kstack).1 = s') :
    ∃ a b, q = a ++ b ∧ InOrder s' (a ++ (s.created + 1) :: b) ∧
      s'.created = s.created + 1 := by
  obtain ⟨l, z, w, hinv, hw, hperm, rfl⟩ := h
  have hm := hinv.made entry size mem memSize ht0 hk0 hfresh
  have hinv' := hinv.create hm ht0 hk0 hfresh
  rw [hs] at hm hinv'
  have htl : t ∉ l := fun hmem =>
    (hfresh.1 ht0).1 (hinv.owned.record t (List.mem_append_left _ hmem) (hfresh.1 ht0).2.1)
  have hrun := hinv.running_mem (hinv.alive halive)
  obtain ⟨a, b, hl, rfl⟩ := hinv.order_split hrun hw hperm
  have hrunning : s'.running = s.running := by
    unfold Sched.running
    rw [hm.current]
  -- the order of the old tasks is what it was
  have hold : ∀ r, r ⊆ l → waits s' r = waits s r := by
    intro r hr
    have hmap : (r.map fun x => (s'.task x).uid) = r.map fun x => (s.task x).uid :=
      List.map_congr_left fun x hx => hm.uid fun he => htl (he ▸ hr hx)
    rw [waits, waits, hmap]
    refine List.filter_congr fun v hv => ?_
    obtain ⟨x, hx, rfl⟩ := List.mem_map.mp hv
    have hle := hinv.owned.uidLe x (List.mem_append_left _ (hr hx))
    rw [hm.fate, Function.update_of_ne (by omega)]
  have hnew : waits s' [t] = [s.created + 1] := by
    rw [waits, List.map_singleton, hm.new.1, hm.fate]
    simp
  have hring := hm.ring
  rw [hl, List.append_assoc, List.cons_append] at hring
  have hturn := hring.turn
  have happ : ∀ r r' : List Nat, ∀ u : Sched, waits u (r ++ r') = waits u r ++ waits u r' := by
    intro r r' u
    simp [waits]
  refine ⟨waits s b, waits s (a ++ [s.running]), happ _ _ _,
    ⟨l ++ [t], z, b ++ [t] ++ (a ++ [s.running]), hinv', ?_, ?_, ?_⟩, hm.created⟩
  · rw [hrunning]
    exact hturn.behind
  · rw [hl]
    refine List.perm_append_comm.trans ?_
    simp
  · rw [happ, happ, hnew, hold b, hold (a ++ [s.running])]
    · simp
    · rw [hl]
      intro x hx
      simp only [List.mem_append, List.mem_cons] at hx ⊢
      tauto
    · rw [hl]
      intro x hx
      simp [hx]

/-! ## Tasks that end -/

/-- Tasks leave the ring, which keeps its order, and none comes to life. -/
structure Left (s s' : Sched) (l l' : List Nat) : Prop where
  ring : Ring s'.next s'.taskRing l'
  kept : ∃ p : Nat → Bool, l' = l.filter p
  uid : ∀ a, (s'.task a).uid = (s.task a).uid
  live : ∀ u, s'.fate u = .live → s.fate u = .live
  current : s'.current = s.current
  created : s'.created = s.created

namespace Left

theorem refl (h : Ring s.next s.taskRing l) : Left s s l l :=
  ⟨h, ⟨fun _ => true, by simp⟩, fun _ => rfl, fun _ => id, rfl, rfl⟩

theorem trans {u : Sched} {m : List Nat} (h : Left s u l m) (h' : Left u s' m l') :
    Left s s' l l' := by
  obtain ⟨p, hp⟩ := h.kept
  obtain ⟨p', hp'⟩ := h'.kept
  refine ⟨h'.ring, ⟨fun a => p a && p' a, ?_⟩, fun a => (h'.uid a).trans (h.uid a),
    fun v hv => h.live v (h'.live v hv), h'.current.trans h.current, h'.created.trans h.created⟩
  rw [hp', hp, List.filter_filter]
  exact List.filter_congr fun a _ => Bool.and_comm _ _

/-- The ring does not need to be known. -/
theorem unique {m : List Nat} (h : Left s s' l l') (hr : Ring s'.next s'.taskRing m) :
    Left s s' l m :=
  h.ring.unique hr ▸ h

end Left

/-- An update that makes no task live. -/
theorem live_of_update {fate : Nat → Fate} {u v : Nat} {f : Fate} (hf : f ≠ .live)
    (h : Function.update fate u f v = .live) : fate v = .live := by
  by_cases hv : v = u
  · rw [hv, Function.update_self] at h
    exact absurd h hf
  · rwa [Function.update_of_ne hv] at h

theorem erase_kept (h : l.Nodup) (t : Nat) : ∃ p : Nat → Bool, l.erase t = l.filter p :=
  ⟨_, h.erase_eq_filter t⟩

theorem Removed.left {f : Fate} (h : Removed s s' l t f) (hl : l.Nodup) (hf : f ≠ .live) :
    Left s s' l (l.erase t) :=
  ⟨h.ring, erase_kept hl t, h.uid, fun _ hv => live_of_update hf (h.fate ▸ hv), h.current,
    h.created⟩

theorem Queued.left {c : Nat} {f : Fate} (h : Queued s s' l' c f)
    (hkept : ∃ p : Nat → Bool, l' = l.filter p) (hf : f ≠ .live) : Left s s' l l' :=
  ⟨h.ring, hkept, h.uid, fun _ hv => live_of_update hf (h.fate ▸ hv), h.current, h.created⟩

theorem reapLoop_left {k : Nat} (h : Inv s head l z) (halive : Alive s l z)
    (hs : reapLoop k s head = some s') : ∃ l', Left s s' l l' := by
  induction z generalizing s head l k with
  | nil =>
    have hhead : head = 0 := h.lists.zombies
    cases k with
    | zero => cases hs
    | succ k =>
      rw [reapLoop, if_pos hhead] at hs
      obtain rfl := Option.some.inj hs
      exact ⟨l, .refl h.lists.ring⟩
  | cons t z ih =>
    obtain ⟨rfl, ht0, -, u, r, hunlink, hrem, hinv, halive'⟩ := h.reap_first halive
    cases k with
    | zero => cases hs
    | succ k =>
      rw [reapLoop, if_neg ht0] at hs
      simp only [hunlink, Option.bind_some] at hs
      obtain ⟨l', hleft⟩ := ih hinv halive' hs
      exact ⟨l', (hrem.left h.lists.ring.nodup (by decide)).trans hleft⟩

theorem reap_left (h : Inv s s.zombieList l z) (halive : Alive s l z) :
    ∃ u l', reapZombiesInternal s = some u ∧ Inv u u.zombieList l' [] ∧ Alive u l' [] ∧
      Left s u l l' := by
  obtain ⟨u, l', hreap, hu, hua, -, -⟩ := reapZombiesInternal_spec h halive
  obtain ⟨m, hleft⟩ := reapLoop_left h.detach halive hreap
  have hleft' : Left s u l m := ⟨hleft.ring, hleft.kept, hleft.uid, hleft.live, hleft.current,
    hleft.created⟩
  exact ⟨u, l', hreap, hu, hua, hleft'.unique hu.lists.ring⟩

/-- The order of those that are left. A running task that leaves the ring keeps its link. -/
theorem Left.cycle (hleft : Left s s' l l') (h : Inv s head l z) (hrun : s.running ∈ l)
    (hw : Cycle s.next (s.next s.running) w) (hperm : w.Perm l)
    (hlink : s.running ∈ l' ∨ (s'.next s.running = s.next s.running ∧ s.next s.running ∈ l')) :
    ∃ p : Nat → Bool, l' = l.filter p ∧ Cycle s'.next (s'.next s.running) (w.filter p) := by
  obtain ⟨p, hp⟩ := hleft.kept
  obtain ⟨a, b, hl, rfl⟩ := h.order_split hrun hw hperm
  refine ⟨p, hp, ?_⟩
  have hring := hleft.ring
  by_cases hc : p s.running = true
  · rw [hp, hl, List.filter_append, List.filter_cons_of_pos hc] at hring
    rw [List.filter_append, List.filter_append, List.filter_cons_of_pos hc, List.filter_nil]
    exact hring.turn.behind
  · obtain ⟨hnext, hmem⟩ := hlink.resolve_left fun hm => by
      rw [hp, List.mem_filter] at hm
      exact hc hm.2
    rw [hp, hl, List.filter_append, List.filter_cons_of_neg hc] at hring
    have hfilter : (b ++ (a ++ [s.running])).filter p = b.filter p ++ a.filter p := by
      rw [List.filter_append, List.filter_append, List.filter_cons_of_neg hc, List.filter_nil,
        List.append_nil]
    rw [hnext, hfilter]
    refine hring.cycle_append ?_
    -- the order begins with the successor, which is left
    obtain ⟨x, r, hx⟩ := List.exists_cons_of_ne_nil hw.nonempty
    have hhead : s.next s.running = x := by
      have hpath := hw.path
      rw [hx] at hpath
      exact hpath.1
    have hpx : p x = true := by
      rw [hp, hhead, List.mem_filter] at hmem
      exact hmem.2
    rw [← hfilter, hx, hhead, List.filter_cons_of_pos hpx, List.head?_cons]

theorem Left.waits_sublist (h : Left s s' l l') (p : Nat → Bool) (w : List Nat) :
    (waits s' (w.filter p)).Sublist (waits s w) := by
  have huid : (fun a => (s'.task a).uid) = fun a => (s.task a).uid := funext h.uid
  rw [waits, waits, huid]
  refine (List.Sublist.filter _ (List.filter_sublist.map _)).trans ?_
  refine List.monotone_filter_right _ fun v hv => ?_
  simp only [decide_eq_true_eq] at hv ⊢
  exact h.live v hv

/-- The queue loses some of its tasks. -/
structure Shorter (s s' : Sched) : Prop where
  queue : ∀ q, InOrder s q → ∃ q', q'.Sublist q ∧ InOrder s' q'
  created : s'.created = s.created

theorem Shorter.refl (s : Sched) : Shorter s s :=
  ⟨fun q hq => ⟨q, List.Sublist.refl q, hq⟩, rfl⟩

theorem Shorter.trans {u : Sched} (h : Shorter s u) (h' : Shorter u s') : Shorter s s' := by
  refine ⟨fun q hq => ?_, h'.created.trans h.created⟩
  obtain ⟨q₁, hsub₁, hq₁⟩ := h.queue q hq
  obtain ⟨q₂, hsub₂, hq₂⟩ := h'.queue q₁ hq₁
  exact ⟨q₂, hsub₂.trans hsub₁, hq₂⟩

/-- The running task stays in the ring, or it keeps its link. -/
theorem Left.shorter (hleft : Left s s' l l') (h : Inv s s.zombieList l z)
    (h' : Inv s' s'.zombieList l' z') (halive : Alive s l z)
    (hlink : s.running ∈ l' ∨ (s'.next s.running = s.next s.running ∧ s.next s.running ∈ l')) :
    Shorter s s' := by
  refine ⟨fun q hq => ?_, hleft.created⟩
  obtain ⟨m, z₂, w, hm, hw, hperm, rfl⟩ := hq
  obtain rfl := hm.lists.ring.unique h.lists.ring
  obtain ⟨p, hp, hcycle⟩ := hleft.cycle h (h.running_mem halive) hw hperm hlink
  have hrunning : s'.running = s.running := by
    unfold Sched.running
    rw [hleft.current]
  refine ⟨_, hleft.waits_sublist p w, l', z', w.filter p, h', ?_, ?_, rfl⟩
  · rw [hrunning]
    exact hcycle
  · rw [hp]
    exact hperm.filter p

theorem Left.shorter_of_alive (hleft : Left s s' l l') (h : Inv s s.zombieList l z)
    (h' : Inv s' s'.zombieList l' z') (halive : Alive s l z) (halive' : Alive s' l' z') :
    Shorter s s' := by
  refine hleft.shorter h h' halive (.inl ?_)
  have hrunning : s'.running = s.running := by
    unfold Sched.running
    rw [hleft.current]
  rw [← hrunning]
  exact h'.running_mem halive'

theorem reap_shorter (h : Inv s s.zombieList l z) (halive : Alive s l z) :
    ∃ u l', reapZombiesInternal s = some u ∧ Inv u u.zombieList l' [] ∧ Alive u l' [] ∧
      Shorter s u := by
  obtain ⟨u, l', hreap, hu, hua, hleft⟩ := reap_left h halive
  exact ⟨u, l', hreap, hu, hua, hleft.shorter_of_alive h hu halive hua⟩

theorem taskExit_shorter (h : Inv s s.zombieList l z) (halive : Alive s l z) {code : Int}
    (hs : taskExit s code = some s') : Shorter s s' := by
  obtain ⟨u, l', hreap, hu, hua, hshort⟩ := reap_shorter h halive
  rw [taskExit, hreap, Option.map_some, Option.some.injEq] at hs
  split at hs
  · exact hs ▸ hshort
  next hret =>
    have h0 : u.current ≠ 0 := fun he => hret (.inl he)
    have hc : u.current ∈ l' := (hua.resolve_left h0).1
    obtain ⟨v, hv, hq, hinv⟩ := exit_queued hu hc (fun he => hret (.inr he)) code
    obtain rfl : v = s' := hv.symm.trans hs
    have hleft : Left u v l' l' := hq.left ⟨fun _ => true, by simp⟩ (by decide)
    exact hshort.trans (hleft.shorter hu hinv hua (.inl (hu.running_mem hua)))

theorem stopSelf_shorter (h : Inv s s.zombieList l []) (halive : Alive s l [])
    (hc : s.current ∈ l) (hci : s.current ≠ initTask) (hs : stopSelf s = some s') :
    Shorter s s' := by
  have h0 := h.owned.nonnull s.current (List.mem_append_left _ hc)
  obtain ⟨v, hv, hq, hinv⟩ := stopSelf_queued h hc hci
  obtain rfl : v = s' := Option.some.inj (hv.symm.trans hs)
  have hleft := hq.left (erase_kept h.lists.ring.nodup s.current) (by decide)
  have hrunning : s.running = s.current := by
    unfold Sched.running
    rw [if_neg h0]
  refine hleft.shorter h hinv halive (.inr ?_)
  rw [hrunning, h.lists.ring.nodup.mem_erase_iff]
  exact ⟨hq.nextSelf, h.lists.ring.next_ne hc h.lists.init (Ne.symm hci),
    h.lists.ring.next_mem hc⟩

theorem stopOther_shorter (h : Inv s s.zombieList l []) (halive : Alive s l []) (ht : t ∈ l)
    (hti : t ≠ initTask) (hcur : t ≠ s.current) (hs : stopOther s t = some s') :
    Shorter s s' := by
  obtain ⟨u, r, hunlink, hrem, hinv, halive'⟩ := h.unlink_free halive (List.mem_append_left _ ht)
    hti (f := .stopped) (.inl rfl) hcur (y := []) (by simp) h.lists.zombies
  rw [← hrem.zombieList] at hinv
  obtain ⟨v, l', hreap, -, -, hshort⟩ := reap_shorter hinv halive'
  rw [stopOther, hunlink, Option.bind_some, hreap] at hs
  obtain rfl := Option.some.inj hs
  exact ((hrem.left h.lists.ring.nodup (by decide)).shorter_of_alive h hinv halive halive').trans
    hshort

theorem taskStop_shorter (h : Inv s s.zombieList l z) (halive : Alive s l z) {pid : Int}
    {r : Option Int} (hs : taskStop s pid = some (s', r)) : Shorter s s' := by
  by_cases hpid : pid = 0
  · rw [taskStop, if_pos hpid, Option.some.injEq, Prod.mk.injEq] at hs
    exact hs.1 ▸ .refl s
  obtain ⟨u, l', hreap, hu, hua, hshort⟩ := reap_shorter h halive
  rw [taskStop, if_neg hpid, hreap, Option.bind_some, if_neg hu.taskRing_ne_zero, hu.findPid_eq,
    Option.bind_some] at hs
  cases hfound : l'.find? fun a => (u.task a).pid = pid with
  | none =>
    rw [hfound, Option.some.injEq, Prod.mk.injEq] at hs
    exact hs.1 ▸ hshort
  | some a =>
    obtain ⟨ha, hapid⟩ := found_spec hfound
    have hai := hu.ne_init_of_pid hpid hapid
    rw [hfound] at hs
    dsimp only at hs
    split at hs
    next hcur =>
      subst hcur
      obtain ⟨v, hv, heq⟩ := Option.map_eq_some_iff.mp hs
      obtain rfl : v = s' := (Prod.mk.inj heq).1
      exact hshort.trans (stopSelf_shorter hu hua ha hai hv)
    next hcur =>
      obtain ⟨v, hv, heq⟩ := Option.map_eq_some_iff.mp hs
      obtain rfl : v = s' := (Prod.mk.inj heq).1
      exact hshort.trans (stopOther_shorter hu hua ha hai hcur hv)

/-! ## Whole runs -/

theorem newcomers_nil (h : s'.created = s.created) : newcomers s s' = [] := by
  rw [newcomers, h, Nat.sub_self, List.range'_zero]

theorem newcomers_singleton (h : s'.created = s.created + 1) :
    newcomers s s' = [s.created + 1] := by
  rw [newcomers, h, Nat.add_sub_cancel_left, List.range'_one]

theorem newcomers_append {u : Sched} (h : s.created ≤ u.created) (h' : u.created ≤ s'.created) :
    newcomers s u ++ newcomers u s' = newcomers s s' := by
  have hstart : u.created + 1 = s.created + 1 + (u.created - s.created) := by omega
  have hlen : s'.created - s.created = u.created - s.created + (s'.created - u.created) := by omega
  rw [newcomers, newcomers, newcomers, hstart, hlen, List.range'_append_1]

/-- What a call does to the queue, put in front of any later history. -/
structure Moves (s : Sched) (o : Op) (s' : Sched) (q q' : List Nat) : Prop where
  order : InOrder s' q'
  le : s.created ≤ s'.created
  turns : ∀ served joined q'', Turns q' served joined q'' →
    Turns q (o.turn s' ++ served) (newcomers s s' ++ joined) q''

theorem Shorter.moves {o : Op} (h : Shorter s s') (hq : InOrder s q) (htick : o.isTick = false) :
    ∃ q', Moves s o s' q q' := by
  obtain ⟨q', hsub, hq'⟩ := h.queue q hq
  refine ⟨q', hq', Nat.le_of_eq h.created.symm, fun served joined q'' hrest => ?_⟩
  rw [Op.turn, if_neg (by simp [htick]), newcomers_nil h.created]
  exact .leave hsub hrest

theorem create_moves {o : Op} (hq : InOrder s q) (halive : ¬ Ended s)
    (entry size mem memSize : Nat) {kstack : Nat} (hfresh : Fresh s t kstack)
    (htick : o.isTick = false) (hs : (createTask s entry size mem memSize t kstack).1 = s') :
    ∃ q', Moves s o s' q q' := by
  by_cases hmade : t = 0 ∨ kstack = 0
  · rw [createTask_failed s entry size mem memSize hmade] at hs
    exact hs ▸ (Shorter.refl s).moves hq htick
  · obtain ⟨ht0, hk0⟩ := not_or.mp hmade
    obtain ⟨a, b, rfl, hq', hcreated⟩ :=
      create_turns hq halive entry size mem memSize ht0 hk0 hfresh hs
    refine ⟨_, hq', by omega, fun served joined q'' hrest => ?_⟩
    rw [Op.turn, if_neg (by simp [htick]), newcomers_singleton hcreated]
    exact .join hrest

/-- Every call. -/
theorem step_moves {o : Op} (hq : InOrder s q) (ho : Permitted s o) (hs : step s o = some s') :
    ∃ q', Moves s o s' q q' := by
  have hgood := hq
  obtain ⟨l, z, -, hinv, -⟩ := hgood
  cases o with
  | taskCreate entry size t kstack =>
    exact create_moves hq (ho.2 rfl) entry size 0 0 ho.1 rfl (Option.some.inj hs)
  | utaskCreate entry size mem memSize t kstack =>
    exact create_moves hq (ho.2 rfl) entry size mem memSize ho.1 rfl (Option.some.inj hs)
  | tick regs =>
    obtain ⟨r, rfl, hq', hcreated⟩ := tick_turns hq hs
    refine ⟨_, hq', Nat.le_of_eq hcreated.symm, fun served joined q'' hrest => ?_⟩
    rw [newcomers_nil hcreated]
    exact .serve hrest
  | taskStop pid =>
    obtain ⟨⟨v, r⟩, hv, rfl⟩ := Option.map_eq_some_iff.mp hs
    exact (taskStop_shorter hinv (hinv.alive (ho.2 rfl)) hv).moves hq rfl
  | taskExit code =>
    exact (taskExit_shorter hinv (hinv.alive (ho.2 rfl)) hs).moves hq rfl
  | reapZombies =>
    obtain ⟨u, l', hreap, -, -, hshort⟩ := reap_shorter hinv (hinv.alive (ho.2 rfl))
    obtain rfl : u = s' := Option.some.inj (hreap.symm.trans hs)
    exact hshort.moves hq rfl
  | taskIsAlive pid =>
    obtain ⟨⟨v, r⟩, hv, rfl⟩ := Option.map_eq_some_iff.mp hs
    by_cases hpid : pid ≤ 0
    · rw [taskIsAlive, if_pos hpid, Option.some.injEq, Prod.mk.injEq] at hv
      exact hv.1 ▸ (Shorter.refl s).moves hq rfl
    · have hpos : 0 < pid := by omega
      obtain ⟨u, l', hreap, -, -, hshort⟩ := reap_shorter hinv (hinv.alive (ho.2 rfl))
      obtain ⟨u', l'', r', -, -, -, hreap', hcall, -⟩ :=
        taskIsAlive_spec hinv (hinv.alive (ho.2 rfl)) hpos
      obtain rfl : u = u' := Option.some.inj (hreap.symm.trans hreap')
      obtain rfl : u = v := by
        rw [hcall, Option.some.injEq, Prod.mk.injEq] at hv
        exact hv.1
      exact hshort.moves hq rfl

theorem run_turns {os : List Op} (hr : Run step Permitted s os s') (hq : InOrder s q) :
    ∃ q', InOrder s' q' ∧ s.created ≤ s'.created ∧ Turns q (turns s os) (newcomers s s') q' := by
  induction hr generalizing q with
  | nil s =>
    refine ⟨q, hq, Nat.le_refl _, ?_⟩
    rw [turns, newcomers_nil rfl]
    exact .nil q
  | cons ho hs _ ih =>
    obtain ⟨q₁, hmoves⟩ := step_moves hq ho hs
    obtain ⟨q', hq', hle, hrest⟩ := ih hmoves.order
    refine ⟨q', hq', hmoves.le.trans hle, ?_⟩
    rw [turns, hs, ← newcomers_append hmoves.le hle]
    exact hmoves.turns _ _ _ hrest

theorem turns_length {os : List Op} (hr : Run step Permitted s os s') :
    (turns s os).length = os.countP Op.isTick := by
  induction hr with
  | nil s => rfl
  | @cons s s₁ s' o os ho hs _ ih =>
    rw [turns, hs]
    dsimp only
    rw [List.length_append, ih, List.countP_cons, Op.turn]
    cases o.isTick <;> simp [Nat.add_comm]

theorem InOrder.mem_iff (hq : InOrder s q) {u : Nat} : u ∈ q ↔ s.fate u = .live := by
  obtain ⟨l, z, w, hinv, -, hperm, rfl⟩ := hq
  rw [mem_waits, and_iff_right_iff_imp]
  intro hu
  obtain ⟨a, ha, rfl⟩ := hinv.fates.complete u (.inl hu)
  refine ⟨a, ?_, rfl⟩
  rw [hinv.fates.known a ha, fateOf] at hu
  by_cases haz : a ∈ z
  · rw [if_pos haz] at hu
    split at hu <;> cases hu
  · exact hperm.mem_iff.mpr ((List.mem_append.mp ha).resolve_right haz)

theorem InOrder.nodup (hq : InOrder s q) : q.Nodup ∧ ∀ u ∈ q, u ≤ s.created := by
  obtain ⟨l, z, w, hinv, hw, hperm, rfl⟩ := hq
  have hmem : ∀ a ∈ w, a ∈ l ++ z := fun a ha => List.mem_append_left _ (hperm.subset ha)
  refine ⟨List.Nodup.filter _ (hw.nodup.map_on fun a ha b hb hab =>
    hinv.owned.uidInj a (hmem a ha) b (hmem b hb) hab), fun u hu => ?_⟩
  obtain ⟨⟨a, ha, rfl⟩, -⟩ := mem_waits.mp hu
  exact hinv.owned.uidLe a (hmem a ha)

/-- A state of a run has its queue. -/
theorem Good.inOrder (h : Good s) : ∃ q, InOrder s q := by
  obtain ⟨l, z, hinv⟩ := h
  have hmem : s.next s.running ∈ l := by
    unfold Sched.running
    split
    · exact hinv.lists.ring.next_mem hinv.lists.init
    · next h0 => exact hinv.next_current_mem h0
  obtain ⟨w, hw, hperm⟩ := hinv.lists.ring.cycle hmem
  exact ⟨_, l, z, w, hinv, hw, hperm, rfl⟩

/-- The tasks that live. -/
def living (s : Sched) : Finset Nat :=
  (Finset.range (s.created + 1)).filter fun u => s.fate u = .live

theorem InOrder.length_eq (hq : InOrder s q) : q.length = (living s).card := by
  rw [← List.toFinset_card_of_nodup hq.nodup.1]
  congr 1
  ext u
  rw [List.mem_toFinset, living, Finset.mem_filter, Finset.mem_range]
  constructor
  · intro hu
    have := hq.nodup.2 u hu
    exact ⟨by omega, hq.mem_iff.mp hu⟩
  · exact fun hu => hq.mem_iff.mpr hu.2

/-- A task that lives all the time waits for at most one turn of each other task that lives
when it begins to wait and of each task that is created while it waits, whatever the tasks call
meanwhile: none of them gets two turns before it has had one. The tasks call nothing any more
when they have ended; `task_exit` comes back to its caller, and what that does then is not
covered. -/
theorem no_starvation (task : Nat → Task) (stack : Nat → Nat) {os os' : List Op} {s s' : Sched}
    (hr : Run step Permitted (start task stack) os s) (hr' : Run step Permitted s os' s')
    {u : Nat} (hu : s.fate u = .live) (hu' : s'.fate u = .live) :
    ((living s).card + (s'.created - s.created) ≤ os'.countP Op.isTick → u ∈ turns s os') ∧
    (u ∉ turns s os' → (turns s os').Nodup ∧
      ∀ v ∈ turns s os', v ∈ living s ∨ (s.created < v ∧ v ≤ s'.created)) := by
  obtain ⟨q, hq⟩ := (run_permitted hr).inOrder
  obtain ⟨q', hq', hle, hturns⟩ := run_turns hr' hq
  have hmem := hq.mem_iff.mpr hu
  have hmem' := hq'.mem_iff.mpr hu'
  have hd : (q ++ newcomers s s').Nodup := by
    refine List.nodup_append.mpr ⟨hq.nodup.1, List.nodup_range', fun v hv y hy he => ?_⟩
    have hold := hq.nodup.2 v hv
    have hnew := (List.mem_range'_1.mp hy).1
    omega
  refine ⟨fun hticks => ?_, fun hwait => ?_⟩
  · by_contra hwait
    have hbound := hturns.bound hd hmem hmem' hwait
    rw [turns_length hr', hq.length_eq, newcomers, List.length_range'] at hbound
    omega
  · obtain ⟨hnodup, hsub⟩ := hturns.overtake hd hmem hmem' hwait
    refine ⟨hnodup, fun v hv => ?_⟩
    rcases List.mem_append.mp (hsub hv) with ha | hj
    · left
      have hvq : v ∈ q := (List.takeWhile_sublist _).subset ha
      have hold := hq.nodup.2 v hvq
      rw [living, Finset.mem_filter, Finset.mem_range]
      exact ⟨by omega, hq.mem_iff.mp hvq⟩
    · right
      obtain ⟨hlo, hhi⟩ := List.mem_range'_1.mp hj
      omega

/-- The second task waits while the first one creates a third and the third stops the first. -/
def startTwo : List Op :=
  [.taskCreate 0x1000 0 0x200000 0x210000, .taskCreate 0x2000 0 0x220000 0x230000, .tick 0x300000]

def createAndStop : List Op :=
  [.taskCreate 0x3000 0 0x240000 0x250000, .tick 0x300100, .tick 0x300200, .taskStop 1,
    .tick 0x300300, .tick 0x300400]

theorem no_starvation_startTwo :
    ∃ s s', Run step Permitted (start (fun _ => noTask) fun _ => 0) startTwo s ∧
      Run step Permitted s createAndStop s' ∧ turns s createAndStop = [2, 3, 0, 2] ∧
      (living s).card + (s'.created - s.created) = 4 ∧ 0 ∈ turns s createAndStop := by
  have hfirst : (exec step Permitted (start (fun _ => noTask) fun _ => 0) startTwo).map
      (fun s => (((s.fate 0, (living s).card), s.created, turns s createAndStop),
        (exec step Permitted s createAndStop).map fun s' => (s'.fate 0, s'.created))) =
      some (((.live, 3), 2, [2, 3, 0, 2]), some (.live, 3)) := by
    decide +kernel
  obtain ⟨s, hs, hval⟩ := Option.map_eq_some_iff.mp hfirst
  simp only [Prod.mk.injEq] at hval
  obtain ⟨⟨⟨hlive, hcard⟩, hcreated, hturns⟩, hsecond⟩ := hval
  obtain ⟨s', hs', hval'⟩ := Option.map_eq_some_iff.mp hsecond
  obtain ⟨hlive', hcreated'⟩ := Prod.mk.inj hval'
  have hcount : (living s).card + (s'.created - s.created) = 4 := by
    rw [hcard, hcreated, hcreated']
  refine ⟨s, s', Run.of_exec hs, Run.of_exec hs', hturns, hcount, ?_⟩
  refine (no_starvation (fun _ => noTask) (fun _ => 0) (Run.of_exec hs) (Run.of_exec hs') hlive
    hlive').1 ?_
  rw [hcount]
  decide

end KernelC.Multitask
