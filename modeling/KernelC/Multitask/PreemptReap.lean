import KernelC.Multitask.PreemptInv

/-!
# Reaping, freeing and ending

The statements of `reap_zombies_internal`, `free_task_resources` and
`task_exit`, which may all be interrupted.

There are three kinds of change: of the ring (`OnlyRing`), of the heap
(`Without`), and of the running task's own record and the head of the zombie list
(`Touches`). What each of them leaves to the others is said once.
-/

namespace KernelC.Multitask.Preempt

variable {D l l' z z' d : List Nat} {owner owner' : Nat → Nat} {s s' : Sched}
  {a b p t w last last' : Nat} {c : Conf} {pc : Pc} {e : Effect}

/-! ## Changes of the ring and of the heap -/

theorem OnlyRing.zombie (h : OnlyRing s s') : Zombie s' a ↔ Zombie s a := by
  unfold Zombie
  rw [h.state a]

theorem OnlyRing.chain (h : OnlyRing s s') {hs : List Nat} (hc : Chain D owner s a p hs d) :
    Chain D owner s' a p hs d := by
  refine ⟨?_, hc.nodup, hc.mine, ?_, fun x hx => (OnlyRing.zombie h).mpr (hc.zombie x hx)⟩
  · rw [h.znext]
    exact hc.path
  · rw [h.alloc]
    exact hc.task

theorem OnlyRing.frame (h : OnlyRing s s') (hsub : ∀ x ∈ l', x ∈ l) :
    Frame D owner owner s s' l l' b := by
  refine ⟨hsub, fun x _ _ ho ha _ => ⟨ho, ?_, by rw [h.znext], (OnlyRing.zombie h).mpr⟩⟩
  rw [h.alloc]
  exact ha

theorem Core.onlyRing (hc : Core D owner s last l z) (h : OnlyRing s s')
    (hring : Ring s'.next last' l') (hsub : ∀ x ∈ l', x ∈ l) (hinit : initTask ∈ l')
    (hcur : s'.next s.running ∈ l') : Core D owner s' last' l' z := by
  refine ⟨hc.estate.congr (fun x _ => h.kstack x) (h.pid _), hring, fun x hx => hc.sub x (hsub x hx),
    fun x hx hi => ?_, hinit, ?_, ?_, ?_⟩
  · rw [h.alloc]
    exact hc.live x (hsub x hx) hi
  · rw [h.runnable]
    exact hc.initRun
  · rw [running_congr h.current]
    exact hcur
  · rw [h.zombieList]
    exact OnlyRing.chain h hc.queue

/-- The lists are as before; of the heap, at most the block `w` is gone. -/
structure Without (s s' : Sched) (w : Nat) : Prop where
  next : s'.next = s.next
  znext : s'.znext = s.znext
  state : ∀ a, (s'.task a).state = (s.task a).state
  kstack : ∀ a, (s'.task a).kstack = (s.task a).kstack
  pid : ∀ a, (s'.task a).pid = (s.task a).pid
  taskRing : s'.taskRing = s.taskRing
  zombieList : s'.zombieList = s.zombieList
  current : s'.current = s.current
  alloc : ∀ x ∈ s.alloc, x ≠ w → x ∈ s'.alloc

namespace Without

theorem zombie (h : Without s s' w) : Zombie s' a ↔ Zombie s a := by
  unfold Zombie
  rw [h.state a]

theorem chain (h : Without s s' w) {hs : List Nat} (hc : Chain D owner s a p hs d)
    (hw : w ∉ hs ++ d) : Chain D owner s' a p hs d := by
  refine ⟨?_, hc.nodup, hc.mine, fun x hx => ?_, fun x hx => h.zombie.mpr (hc.zombie x hx)⟩
  · rw [h.znext]
    exact hc.path
  · obtain ⟨hD, hi, halloc⟩ := hc.task x hx
    exact ⟨hD, hi, h.alloc x halloc fun he => hw (he ▸ hx)⟩

theorem frame (h : Without s s' w) (hw : ∀ x ∈ D, x ≠ initTask → owner x = b → x ≠ w) :
    Frame D owner owner s s' l l b := by
  refine ⟨fun _ hx => hx, fun x hD hi ho ha _ => ⟨ho, h.alloc x ha (hw x hD hi ho), ?_, h.zombie.mpr⟩⟩
  rw [h.znext]

theorem core (h : Without s s' w) (hc : Core D owner s last l z)
    (hl : ∀ x ∈ l, x ≠ initTask → x ≠ w) (hz : w ∉ z) : Core D owner s' last l z := by
  refine ⟨hc.estate.congr (fun x _ => h.kstack x) (h.pid _), ?_, hc.sub,
    fun x hx hi => h.alloc x (hc.live x hx hi) (hl x hx hi), hc.init, ?_, ?_, ?_⟩
  · rw [h.next]
    exact hc.ring
  · unfold runnable
    rw [h.state]
    exact hc.initRun
  · rw [running_congr h.current, h.next]
    exact hc.cur
  · rw [h.zombieList]
    exact h.chain hc.queue hz

end Without

theorem freeStack_without (s : Sched) (t : Nat) :
    Without s (freeStack (freeCall s t) t) (s.task t).kstack := by
  refine ⟨rfl, rfl, fun _ => rfl, fun _ => rfl, fun _ => rfl, rfl, rfl, rfl, fun x hx hw => ?_⟩
  unfold freeStack freeCall
  dsimp only
  split
  · exact Finset.mem_erase.mpr ⟨hw, hx⟩
  · exact hx

theorem freeUser_record (s : Sched) (t a : Nat) : (freeUser s t).task a =
    { s.task a with
      userMem := ((freeUser s t).task a).userMem
      userMemSize := ((freeUser s t).task a).userMemSize } := by
  unfold freeUser
  dsimp only
  split
  · by_cases ha : a = t
    · rw [ha, Function.update_self]
    · rw [Function.update_of_ne ha]
  · rfl

theorem freeUser_without (s : Sched) (t w : Nat) : Without s (freeUser s t) w := by
  refine ⟨?_, ?_, fun a => ?_, fun a => ?_, fun a => ?_, rfl, rfl, rfl, fun x hx _ => hx⟩
  · funext a
    unfold Sched.next
    rw [freeUser_record]
  · funext a
    unfold Sched.znext
    rw [freeUser_record]
  all_goals rw [freeUser_record]

theorem freeRecord_without (s : Sched) (t : Nat) (f : Fate) : Without s (freeRecord s t f) t :=
  ⟨rfl, rfl, fun _ => rfl, fun _ => rfl, fun _ => rfl, rfl, rfl, rfl,
    fun _ hx hw => Finset.mem_erase.mpr ⟨hw, hx⟩⟩

/-! ## Reaping -/

theorem after_here (hup : Up s l a) (k : After) : Here s l a k.pc := by
  cases k with
  | done => exact .inl hup.1
  | search | exit | alive => exact hup

theorem after_held (k : After) : Held D owner s l a k.pc := by
  cases k with
  | done | search | exit | alive => exact Held.nothing rfl rfl trivial

theorem after_tail (k : After) : tail s k.pc = s.taskRing := by
  cases k with
  | done | search | exit | alive => rfl

/-- The list goes from the queue to the running task. -/
theorem Safe.reapStart (hs : Safe D c l z owner) {k : After}
    (hpc : c.pc c.sched.running = .reapStart k) (he : stmt c.sched (.reapStart k) = some e) :
    Sound D (c.apply e) := by
  obtain rfl := Option.some.inj he
  have hq := hs.core.queue
  have hcore := hs.core
  have hup := hs.here
  rw [hpc] at hcore hup
  refine ⟨l, [], fun x => if x ∈ z then c.sched.running else owner x,
    hs.apply rfl ?_ ⟨trivial, z, ?_⟩ hup (fun b hb hb0 => ⟨fun _ hx => hx, ?_⟩) (fun _ _ => rfl)
      (fun x hx => by cases hx) (fun x hx => by cases hx)⟩
  · exact ⟨⟨hcore.estate.nonnull, hcore.estate.bounded, hcore.estate.apart, hcore.estate.initPid⟩,
      hcore.ring, hcore.sub, hcore.live, hcore.init, hcore.initRun, hcore.cur, Chain.nil⟩
  · exact ⟨hq.path, hq.nodup, fun x hx => if_pos hx, hq.task, hq.zombie⟩
  · intro x _ _ ho ha _
    have hxz : x ∉ z := fun hx => hb0 (ho ▸ hq.mine x hx)
    exact ⟨by rw [if_neg hxz, ho], ha, rfl, fun hz => hz⟩

theorem Safe.reapLoop (hs : Safe D c l z owner) {y : Nat} {k : After}
    (hpc : c.pc c.sched.running = .reapLoop y k) (he : stmt c.sched (.reapLoop y k) = some e) :
    Sound D (c.apply e) := by
  obtain ⟨-, d, hc⟩ := hs.mine
  have hup := hs.here
  rw [hpc] at hc hup
  rw [stmt] at he
  split at he
  · obtain rfl := Option.some.inj he
    refine ⟨l, z, owner, hs.goes ?_ (after_held k) (after_here hup k) fun x hx => by cases hx⟩
    rw [hpc, after_tail]
    rfl
  · next hy =>
    obtain rfl := Option.some.inj he
    cases d with
    | nil => exact absurd hc.path hy
    | cons x d =>
      obtain ⟨hyx, hrest⟩ := hc.path
      have hyx : y = x := hyx
      subst hyx
      refine ⟨l, z, owner, hs.goes ?_ ⟨hc.zombie y List.mem_cons_self, d, ?_⟩ hup fun x hx => ?_⟩
      · rw [hpc]
        rfl
      · exact ⟨hrest, hc.nodup, hc.mine, hc.task,
          fun x hx => hc.zombie x (List.mem_cons_of_mem _ hx)⟩
      · rw [List.mem_singleton.mp hx]
        exact gone_of_live fun _ => (hc.task y List.mem_cons_self).2.2

theorem Core.walk_mem (hc : Core D owner s s.taskRing l z) {found : Nat → Bool} {start : Nat}
    {k : Nat} : ∀ x ∈ s.taskRing :: ringWalk s.next found start k (s.next s.taskRing), x ∈ l := by
  intro x hx
  rcases List.mem_cons.mp hx with rfl | hx
  · exact hc.ring.tail_mem
  · exact ringWalk_sound (P := fun x => x ∈ l) (fun y hy => hc.ring.next_mem hy)
      (hc.ring.next_mem hc.ring.tail_mem) x hx

theorem Safe.reapUnlink (hs : Safe D c l z owner) {y nextZ : Nat} {k : After}
    (hpc : c.pc c.sched.running = .reapUnlink y nextZ k)
    (he : stmt c.sched (.reapUnlink y nextZ k) = some e) : Sound D (c.apply e) := by
  obtain ⟨hzombie, d, hc⟩ := hs.mine
  have hcore := hs.core
  have hup := hs.here
  rw [hpc] at hc hup hcore hzombie
  obtain ⟨hD, hyi, halloc⟩ := hc.task y List.mem_cons_self
  have hlen : l.length ≤ 2 ^ 64 := length_le_of_bounded hcore.ring.nodup fun x hx =>
    hcore.estate.bounded x (hcore.sub x hx)
  obtain ⟨s', r, hunlink, hring, honly, -⟩ := unlinkFromRing_spec hcore.ring hlen
    (fun h0 => hcore.mem_ne_zero h0 rfl) hcore.init (hcore.estate.nonnull y hD) hyi
  rw [stmt, hunlink] at he
  obtain rfl := Option.some.inj he
  have hmem : ∀ x, x ∈ l.erase y ↔ x ≠ y ∧ x ∈ l := fun x => hcore.ring.nodup.mem_erase_iff
  have hsub : ∀ x ∈ l.erase y, x ∈ l := fun x hx => ((hmem x).mp hx).2
  -- the running task is no zombie, so it is another one
  have hself : c.sched.running ∈ l.erase y :=
    (hmem _).mpr ⟨fun he => hup.2 (he ▸ hzombie), hup.1⟩
  refine ⟨l.erase y, z, owner, hs.apply honly.current
    (hcore.onlyRing honly hring hsub ((hmem _).mpr ⟨Ne.symm hyi, hcore.init⟩) (hring.next_mem hself))
    ⟨fun hm => ((hmem y).mp hm).1 rfl, d, OnlyRing.chain honly hc⟩
    ⟨hself, fun hz => hup.2 ((OnlyRing.zombie honly).mp hz)⟩ (fun b _ _ => OnlyRing.frame honly hsub)
    (fun a _ => honly.state a) ?_ fun x hx => by cases hx⟩
  intro x hx
  refine hcore.not_gone ?_
  have hx : x ∈ unlinkReads c.sched y := hx
  unfold unlinkReads at hx
  split at hx
  · cases hx
  · exact hcore.walk_mem x hx

/-! ## Freeing -/

theorem running_ne_zero (s : Sched) : s.running ≠ 0 := by
  unfold Sched.running
  split
  · exact initTask_ne_zero
  · assumption

/-- A statement that leaves the lists alone and frees the block `w`, which is no
record that another owner or the ring still uses. -/
theorem Safe.without (hs : Safe D c l z owner) (hw : Without c.sched e.sched w)
    (hl : ∀ x ∈ l, x ≠ initTask → x ≠ w)
    (hother : ∀ x ∈ D, x ≠ initTask → owner x ≠ c.sched.running → x ≠ w)
    {old : Pc} (hpc : c.pc c.sched.running = old) (hold : tail c.sched old = c.sched.taskRing)
    (htail : tail e.sched e.pc = e.sched.taskRing)
    (hmine : Held D owner e.sched l c.sched.running e.pc)
    (hhere : Here e.sched l c.sched.running e.pc) (hreads : e.reads = [])
    (hfrees : ∀ x ∈ e.frees, gone c.sched x = false) : Safe D (c.apply e) l z owner := by
  have hz : w ∉ z := by
    intro hm
    obtain ⟨hD, hi, -⟩ := hs.core.queue.task w hm
    refine hother w hD hi ?_ rfl
    rw [hs.core.queue.mine w hm]
    exact Ne.symm (running_ne_zero _)
  have h := hw.core hs.core hl hz
  rw [hpc, hold, ← hw.taskRing, ← htail] at h
  refine hs.apply hw.current h hmine hhere
    (fun b hb _ => hw.frame fun x hD hi ho => hother x hD hi (by rw [ho]; exact hb))
    (fun a _ => hw.state a) (fun x hx => ?_) hfrees
  rw [hreads] at hx
  cases hx

theorem Without.up (hw : Without s s' w) (hup : Up s l a) : Up s' l a :=
  ⟨hup.1, fun hz => hup.2 (hw.zombie.mp hz)⟩

theorem Safe.freeStack (hs : Safe D c l z owner) {r : Rest}
    (hpc : c.pc c.sched.running = .freeStack t r) (he : stmt c.sched (.freeStack t r) = some e) :
    Sound D (c.apply e) := by
  obtain ⟨hout, d, hc⟩ := hs.mine
  have hup := hs.here
  rw [hpc] at hout hc hup
  obtain ⟨hD, hti, -⟩ := hc.task t List.mem_cons_self
  have ht0 := hs.core.estate.nonnull t hD
  rw [stmt, if_neg (by simp [ht0, hti])] at he
  obtain rfl := Option.some.inj he
  have hw := freeStack_without c.sched t
  have hne : ∀ x ∈ D, x ≠ initTask → x ≠ (c.sched.task t).kstack := fun x hx hi =>
    Ne.symm (hs.core.estate.apart t hD hti x hx hi)
  refine ⟨l, z, owner, hs.without hw (fun x hx hi => hne x (hs.core.sub x hx) hi)
    (fun x hx hi _ => hne x hx hi) hpc rfl rfl ⟨hout, d, hw.chain hc fun hm => ?_⟩
    (hw.up hup) rfl fun x hx => by cases hx⟩
  exact hne _ (hc.task _ hm).1 (hc.task _ hm).2.1 rfl

theorem Safe.freeUser (hs : Safe D c l z owner) {r : Rest}
    (hpc : c.pc c.sched.running = .freeUser t r) (he : stmt c.sched (.freeUser t r) = some e) :
    Sound D (c.apply e) := by
  obtain ⟨hout, d, hc⟩ := hs.mine
  have hup := hs.here
  rw [hpc] at hout hc hup
  obtain rfl := Option.some.inj he
  have hw := freeUser_without c.sched t 0
  have hne : ∀ x ∈ D, x ≠ initTask → x ≠ 0 := fun x hx _ => hs.core.estate.nonnull x hx
  refine ⟨l, z, owner, hs.without hw (fun x hx hi => hne x (hs.core.sub x hx) hi)
    (fun x hx hi _ => hne x hx hi) hpc rfl rfl ⟨hout, d, hw.chain hc fun hm => ?_⟩
    (hw.up hup) rfl fun x hx => by cases hx⟩
  exact hne _ (hc.task _ hm).1 (hc.task _ hm).2.1 rfl

theorem Safe.freeRecord (hs : Safe D c l z owner) {r : Rest}
    (hpc : c.pc c.sched.running = .freeRecord t r) (he : stmt c.sched (.freeRecord t r) = some e) :
    Sound D (c.apply e) := by
  obtain ⟨hout, d, hc⟩ := hs.mine
  have hup := hs.here
  rw [hpc] at hout hc hup
  obtain rfl := Option.some.inj he
  have hw := freeRecord_without c.sched t r.fate
  have htd : t ∉ d := (List.nodup_cons.mp hc.nodup).1
  have hrest : Chain D owner c.sched c.sched.running r.head [] d :=
    ⟨hc.path, (List.nodup_cons.mp hc.nodup).2, fun x hx => hc.mine x (List.mem_cons_of_mem _ hx),
      fun x hx => hc.task x (List.mem_cons_of_mem _ hx), hc.zombie⟩
  refine ⟨l, z, owner, hs.without hw (fun x hx _ he => hout (he ▸ hx)) (fun x _ _ ho he => ?_)
    hpc rfl (by cases r <;> rfl) ?_ ?_ rfl fun x hx => ?_⟩
  · exact ho (he ▸ hc.mine t List.mem_cons_self)
  · cases r with
    | reap nextZ k => exact ⟨trivial, d, hw.chain hrest htd⟩
    | stop => exact Held.nothing rfl rfl trivial
  · cases r with
    | reap nextZ k => exact hw.up hup
    | stop => exact hw.up hup
  · rw [List.mem_singleton.mp hx]
    exact gone_of_live fun _ => (hc.task t List.mem_cons_self).2.2

/-! ## The current task ends -/

theorem current_of_running (h : s.running ≠ initTask) : s.current = s.running ∧ s.current ≠ 0 := by
  unfold Sched.running at h ⊢
  split at h
  · exact absurd rfl h
  · next h0 => exact ⟨by rw [if_neg h0], h0⟩

theorem Safe.exitCheck (hs : Safe D c l z owner) {code : Int}
    (hpc : c.pc c.sched.running = .exitCheck code) (he : stmt c.sched (.exitCheck code) = some e) :
    Sound D (c.apply e) := by
  have hup := hs.here
  rw [hpc] at hup
  obtain rfl := Option.some.inj he
  split
  · exact hs.moves hpc rfl rfl rfl rfl trivial (.inl hup.1) (by simp)
  · next hcur =>
    have hinit : c.sched.running ≠ initTask := by
      unfold Sched.running
      rw [if_neg fun h0 => hcur (.inl h0)]
      exact fun hi => hcur (.inr hi)
    exact hs.moves hpc rfl rfl rfl rfl hinit hup (by simp)

theorem Safe.exitCode (hs : Safe D c l z owner) {code : Int}
    (hpc : c.pc c.sched.running = .exitCode code) (he : stmt c.sched (.exitCode code) = some e) :
    Sound D (c.apply e) := by
  obtain ⟨hfact, -⟩ := hs.mine
  have hup := hs.here
  rw [hpc] at hfact hup
  obtain rfl := Option.some.inj he
  have hw : Without c.sched (c.sched.modify c.sched.current fun t => { t with exitCode := code }) 0 := by
    exact ⟨funext (modify_field Task.next rfl), funext (modify_field Task.znext rfl),
      modify_field Task.state rfl, modify_field Task.kstack rfl, modify_field Task.pid rfl, rfl, rfl,
      rfl, fun x hx _ => hx⟩
  have hne : ∀ x ∈ D, x ≠ 0 := hs.core.estate.nonnull
  exact ⟨l, z, owner, hs.without hw (fun x hx _ => hne x (hs.core.sub x hx)) (fun x hx _ _ => hne x hx)
    hpc rfl rfl (Held.nothing rfl rfl hfact) (hw.up hup) rfl fun x hx => by cases hx⟩

/-- The task `m` changes its own record, or the head of the zombie list. -/
structure Touches (s s' : Sched) (m : Nat) : Prop where
  next : s'.next = s.next
  other : ∀ a, a ≠ m → s'.task a = s.task a
  zombie : Zombie s m → Zombie s' m
  kstack : ∀ a, (s'.task a).kstack = (s.task a).kstack
  pid : ∀ a, (s'.task a).pid = (s.task a).pid
  taskRing : s'.taskRing = s.taskRing
  current : s'.current = s.current
  alloc : s'.alloc = s.alloc

theorem modify_touches {m : Nat} {g : Task → Task} (hnext : (g (s.task m)).next = (s.task m).next)
    (hk : (g (s.task m)).kstack = (s.task m).kstack) (hp : (g (s.task m)).pid = (s.task m).pid)
    (hz : (s.task m).state = .zombie → (g (s.task m)).state = .zombie) :
    Touches s (s.modify m g) m := by
  refine ⟨funext (modify_field Task.next hnext), fun a ha => modify_of_ne _ _ ha, fun h => ?_,
    modify_field Task.kstack hk, modify_field Task.pid hp, rfl, rfl, rfl⟩
  unfold Zombie
  rw [modify_self]
  exact hz h

theorem Touches.frame {m : Nat} (h : Touches s s' m) (howner : ∀ x, x ≠ m → owner' x = owner x)
    (hm : owner m = b → ¬ (Zombie s m ∨ m ∉ l)) : Frame D owner owner' s s' l l b := by
  refine ⟨fun _ hx => hx, fun x _ _ ho ha hsp => ?_⟩
  have hxm : x ≠ m := by
    rintro rfl
    exact hm ho hsp
  refine ⟨by rw [howner x hxm, ho], by rw [h.alloc]; exact ha, ?_, fun hz => ?_⟩
  · unfold Sched.znext
    rw [h.other x hxm]
  · unfold Zombie
    rw [h.other x hxm]
    exact hz

/-- A statement in which the running task ends itself; no other owner holds
it. -/
theorem Safe.touches (hs : Safe D c l z owner) (ht : Touches c.sched e.sched c.sched.running)
    (hinit : c.sched.running ≠ initTask) (howner : ∀ x, x ≠ c.sched.running → owner' x = owner x)
    (hfree : ∀ b, b ≠ c.sched.running → owner c.sched.running = b →
      ¬ (Zombie c.sched c.sched.running ∨ c.sched.running ∉ l))
    (hqueue : Chain D owner' e.sched 0 e.sched.zombieList [] z')
    {old : Pc} (hpc : c.pc c.sched.running = old) (hold : tail c.sched old = c.sched.taskRing)
    (htail : tail e.sched e.pc = e.sched.taskRing)
    (hmine : Held D owner' e.sched l c.sched.running e.pc)
    (hhere : Here e.sched l c.sched.running e.pc) (hreads : e.reads = []) (hfrees : e.frees = []) :
    Safe D (c.apply e) l z' owner' := by
  have h := hs.core
  rw [hpc, hold, ← ht.taskRing, ← htail] at h
  refine hs.apply ht.current ⟨h.estate.congr (fun x _ => ht.kstack x) (ht.pid _), ?_, h.sub, ?_,
    h.init, ?_, ?_, hqueue⟩ hmine hhere (fun b hb _ => ht.frame howner (hfree b hb))
    (fun a ha => by rw [ht.other a ha]) (fun x hx => ?_) (fun x hx => ?_)
  · rw [ht.next]
    exact h.ring
  · rw [ht.alloc]
    exact h.live
  · unfold runnable
    rw [ht.other _ (Ne.symm hinit)]
    exact h.initRun
  · rw [running_congr ht.current, ht.next]
    exact h.cur
  · rw [hreads] at hx
    cases hx
  · rw [hfrees] at hx
    cases hx

/-- The current task becomes a zombie and holds itself; until now it was in the
ring and alive, so nobody else held it. -/
theorem Safe.endState (hs : Safe D c l z owner) {f : Ending}
    (hpc : c.pc c.sched.running = .endState f) (he : stmt c.sched (.endState f) = some e) :
    Sound D (c.apply e) := by
  obtain ⟨hself, -⟩ := hs.mine
  have hup := hs.here
  rw [hpc] at hself hup
  have hme := (current_of_running hself).1
  obtain rfl := Option.some.inj he
  rw [hme]
  have hD := hs.core.sub _ hup.1
  have hm : Touches c.sched (c.sched.modify c.sched.running fun t => { t with state := .zombie })
      c.sched.running := modify_touches rfl rfl rfl fun _ => rfl
  have ht : Touches c.sched
      ((c.sched.modify c.sched.running fun t => { t with state := .zombie }).setFate
        c.sched.running f.fate) c.sched.running :=
    ⟨hm.next, hm.other, hm.zombie, hm.kstack, hm.pid, hm.taskRing, hm.current, hm.alloc⟩
  have hzombie : Zombie ((c.sched.modify c.sched.running fun t => { t with state := .zombie }).setFate
      c.sched.running f.fate) c.sched.running := by
    unfold Zombie Sched.setFate
    dsimp only
    rw [modify_self]
  have hfree : ¬ (Zombie c.sched c.sched.running ∨ c.sched.running ∉ l) :=
    fun h => h.elim hup.2 fun hm => hm hup.1
  have howner : ∀ x, x ≠ c.sched.running →
      Function.update owner c.sched.running c.sched.running x = owner x :=
    fun x hx => Function.update_of_ne hx _ _
  refine ⟨l, z, _, hs.touches ht hself howner (fun b _ _ => hfree)
    (hs.core.queue.frame (ht.frame (l := l) howner fun _ => hfree) (by simp)) hpc rfl rfl
    ⟨hzombie, [], rfl, List.nodup_singleton _, ?_, ?_, by simp⟩ hup.1 rfl rfl⟩
  · intro x hx
    rw [List.mem_singleton.mp hx]
    exact Function.update_self _ _ _
  · intro x hx
    rw [List.mem_singleton.mp hx]
    exact ⟨hD, hself, hs.core.live _ hup.1 hself⟩

theorem Safe.endZnext (hs : Safe D c l z owner) {f : Ending}
    (hpc : c.pc c.sched.running = .endZnext f) (he : stmt c.sched (.endZnext f) = some e) :
    Sound D (c.apply e) := by
  obtain ⟨hzombie, d, hc⟩ := hs.mine
  have hl := hs.here
  rw [hpc] at hzombie hc hl
  have howns := hc.mine _ List.mem_cons_self
  have hself := (hc.task _ List.mem_cons_self).2.1
  obtain ⟨hme, h0⟩ := current_of_running hself
  rw [stmt, if_neg h0] at he
  obtain rfl := Option.some.inj he
  rw [hme]
  have ht : Touches c.sched
      (c.sched.modify c.sched.running fun t => { t with znext := c.sched.zombieList })
      c.sched.running := modify_touches rfl rfl rfl fun hz => hz
  have hznext : (c.sched.modify c.sched.running fun t =>
      { t with znext := c.sched.zombieList }).znext c.sched.running = c.sched.zombieList := by
    unfold Sched.znext
    rw [modify_self]
  have hfree : ∀ b, b ≠ c.sched.running → owner c.sched.running = b →
      ¬ (Zombie c.sched c.sched.running ∨ c.sched.running ∉ l) :=
    fun b hb ho => absurd (ho.symm.trans howns) hb
  refine ⟨l, z, owner, hs.touches ht hself (fun _ _ => rfl) hfree
    (hs.core.queue.frame (ht.frame (l := l) (fun _ _ => rfl)
      (hfree 0 (Ne.symm (running_ne_zero _)))) (by simp)) hpc rfl rfl
    ⟨ht.zombie hzombie, [], rfl, List.nodup_singleton _, ?_, ?_, by simp⟩
    ⟨hl, hznext⟩ rfl rfl⟩
  · exact fun x hx => hc.mine x (List.mem_append_left _ hx)
  · exact fun x hx => hc.task x (List.mem_append_left _ hx)

/-- The current task goes from its own hands to the zombie list. -/
theorem Safe.endQueue (hs : Safe D c l z owner) {f : Ending}
    (hpc : c.pc c.sched.running = .endQueue f) (he : stmt c.sched (.endQueue f) = some e) :
    Sound D (c.apply e) := by
  obtain ⟨hzombie, d, hc⟩ := hs.mine
  have hhere := hs.here
  rw [hpc] at hzombie hc hhere
  obtain ⟨hl, hznext⟩ := hhere
  have howns := hc.mine _ List.mem_cons_self
  have htask := hc.task _ List.mem_cons_self
  have hme := (current_of_running htask.2.1).1
  obtain rfl := Option.some.inj he
  have hq := hs.core.queue
  have hnot : ∀ x ∈ z, x ≠ c.sched.running := by
    rintro x hx rfl
    exact running_ne_zero _ (howns.symm.trans (hq.mine _ hx))
  have howner : ∀ x, x ≠ c.sched.running →
      Function.update owner c.sched.running 0 x = owner x :=
    fun x hx => Function.update_of_ne hx _ _
  have ht : Touches c.sched { c.sched with zombieList := c.sched.current } c.sched.running :=
    ⟨rfl, fun _ _ => rfl, fun h => h, fun _ => rfl, fun _ => rfl, rfl, rfl, rfl⟩
  refine ⟨l, c.sched.running :: z, _, hs.touches ht htask.2.1 howner
    (fun b hb ho => absurd (ho.symm.trans howns) hb) ?_ hpc rfl (by cases f <;> rfl) ?_ ?_
    rfl rfl⟩
  · refine ⟨⟨hme, ?_⟩, List.nodup_cons.mpr ⟨fun hm => hnot _ hm rfl, hq.nodup⟩, ?_, ?_, ?_⟩
    · show Path c.sched.znext (c.sched.znext c.sched.running) z 0
      rw [hznext]
      exact hq.path
    · intro x hx
      rcases List.mem_cons.mp hx with rfl | hx
      · exact Function.update_self _ _ _
      · rw [howner x (hnot x hx)]
        exact hq.mine x hx
    · intro x hx
      rcases List.mem_cons.mp hx with rfl | hx
      · exact htask
      · exact hq.task x hx
    · intro x hx
      rcases List.mem_cons.mp hx with rfl | hx
      · exact hzombie
      · exact hq.zombie x hx
  · cases f with
    | exit => exact Held.nothing rfl rfl trivial
    | stop => exact Held.nothing rfl rfl trivial
  · cases f with
    | exit => exact .inl hl
    | stop =>
      show Leaving _ l _ c.sched.current true
      rw [hme]
      exact ⟨hl, htask.2.1, rfl⟩

end KernelC.Multitask.Preempt
