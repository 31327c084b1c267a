import KernelC.Multitask.PreemptReap

/-!
# The walks

The search of `task_stop` and its `unlink_from_ring`, statement by statement, and
the walk of `task_is_alive`. Inside the first two the running task relies on the
ring as it is, so no tick may come.
-/

namespace KernelC.Multitask.Preempt

variable {D l l' z z' d : List Nat} {owner owner' : Nat → Nat} {s s' : Sched}
  {a b p t w last last' : Nat} {c : Conf} {pc : Pc} {e : Effect}

/-! ## The search of `task_stop` -/

theorem Safe.stopRing (hs : Safe D c l z owner) {pid : StopPid}
    (hpc : c.pc c.sched.running = .stopRing pid) (he : stmt c.sched (.stopRing pid) = some e) :
    Sound D (c.apply e) := by
  have hcore := hs.core
  have hup := hs.here
  rw [hpc] at hcore hup
  have h0 : c.sched.taskRing ≠ 0 := hcore.tail_ne_zero
  obtain rfl := Option.some.inj he
  rw [if_neg h0]
  exact hs.moves hpc rfl rfl rfl rfl trivial hup (by simp)

theorem Safe.stopFirst (hs : Safe D c l z owner) {pid : StopPid}
    (hpc : c.pc c.sched.running = .stopFirst pid) (he : stmt c.sched (.stopFirst pid) = some e) :
    Sound D (c.apply e) := by
  have hcore := hs.core
  have hup := hs.here
  rw [hpc] at hcore hup
  have htail : c.sched.taskRing ∈ l := hcore.ring.tail_mem
  obtain rfl := Option.some.inj he
  exact hs.moves hpc rfl rfl rfl rfl trivial ⟨hup, hcore.ring.next_mem htail⟩
    (by simpa using htail)

/-- `init_task` is never found: its pid is 0. -/
theorem Safe.stopTest (hs : Safe D c l z owner) {pid : StopPid} {it : Nat}
    (hpc : c.pc c.sched.running = .stopTest pid it) (he : stmt c.sched (.stopTest pid it) = some e) :
    Sound D (c.apply e) := by
  have hhere := hs.here
  rw [hpc] at hhere
  obtain ⟨hup, hit⟩ := hhere
  obtain rfl := Option.some.inj he
  split
  · next hfound =>
    refine hs.moves hpc rfl rfl rfl rfl trivial ⟨hup, hit, ?_⟩ (by simpa using hit)
    rintro rfl
    exact pid.2 (hfound.symm.trans hs.core.estate.initPid)
  · exact hs.moves hpc rfl rfl rfl rfl trivial ⟨hup, hit⟩ (by simpa using hit)

theorem Safe.stopNext (hs : Safe D c l z owner) {pid : StopPid} {it : Nat}
    (hpc : c.pc c.sched.running = .stopNext pid it) (he : stmt c.sched (.stopNext pid it) = some e) :
    Sound D (c.apply e) := by
  have hhere := hs.here
  rw [hpc] at hhere
  obtain ⟨hup, hit⟩ := hhere
  obtain rfl := Option.some.inj he
  exact hs.moves hpc rfl rfl rfl rfl trivial ⟨hup, hs.core.ring.next_mem hit⟩
    (by simpa using hit)

theorem Safe.stopCompare (hs : Safe D c l z owner) {pid : StopPid} {it : Nat}
    (hpc : c.pc c.sched.running = .stopCompare pid it)
    (he : stmt c.sched (.stopCompare pid it) = some e) : Sound D (c.apply e) := by
  have hcore := hs.core
  have hhere := hs.here
  rw [hpc] at hcore hhere
  have htail : c.sched.taskRing ∈ l := hcore.ring.tail_mem
  obtain rfl := Option.some.inj he
  split
  · exact hs.moves hpc rfl rfl rfl rfl trivial (.inl hhere.1.1) (by simpa using htail)
  · exact hs.moves hpc rfl rfl rfl rfl trivial hhere (by simpa using htail)

/-- The task that is found goes to the running task. It is alive and in the
ring, so nobody else holds it. -/
theorem Safe.stopFound (hs : Safe D c l z owner) {found : Nat}
    (hpc : c.pc c.sched.running = .stopFound found)
    (halive : (c.sched.task found).state ≠ .zombie)
    (he : stmt c.sched (.stopFound found) = some e) : Sound D (c.apply e) := by
  have hcore := hs.core
  have hhere := hs.here
  rw [hpc] at hcore hhere
  obtain ⟨hup, hfound, hinit⟩ := hhere
  obtain rfl := Option.some.inj he
  by_cases hself : found = c.sched.current
  · have hrun : c.sched.running = found := by
      unfold Sched.running
      rw [if_neg (hself ▸ hcore.mem_ne_zero hfound), hself]
    rw [if_pos hself]
    exact hs.moves hpc rfl rfl rfl rfl (by rw [hrun]; exact hinit) hup (by simp)
  · have hne : found ≠ c.sched.running := by
      unfold Sched.running
      split
      · exact hinit
      · exact hself
    rw [if_neg hself]
    have hframe : ∀ b, Frame D owner (Function.update owner found c.sched.running) c.sched c.sched
        l l b := by
      refine fun b => ⟨fun _ hx => hx, fun x _ _ ho ha hsp => ⟨?_, ha, rfl, fun hz => hz⟩⟩
      have hx : x ≠ found := by
        rintro rfl
        exact hsp.elim halive fun hm => hm hfound
      rw [Function.update_of_ne hx, ho]
    refine ⟨l, z, Function.update owner found c.sched.running, hs.apply rfl
      ⟨hcore.estate, hcore.ring, hcore.sub, hcore.live, hcore.init, hcore.initRun, hcore.cur,
        hcore.queue.frame (hframe 0) (by simp)⟩
      ⟨trivial, [], rfl, List.nodup_singleton _, fun x hx => ?_, fun x hx => ?_, by simp⟩
      ⟨hfound, hinit, hne, hup⟩ (fun b _ _ => hframe b) (fun _ _ => rfl) (fun x hx => by cases hx)
      fun x hx => by cases hx⟩
    · rw [List.mem_singleton.mp hx]
      exact Function.update_self _ _ _
    · rw [List.mem_singleton.mp hx]
      exact ⟨hcore.sub _ hfound, hinit, hcore.live _ hfound hinit⟩

theorem Safe.aliveWalk (hs : Safe D c l z owner) {pid : Int}
    (hpc : c.pc c.sched.running = .aliveWalk pid) (he : stmt c.sched (.aliveWalk pid) = some e) :
    Sound D (c.apply e) := by
  have hcore := hs.core
  have hup := hs.here
  rw [hpc] at hcore hup
  obtain rfl := Option.some.inj he
  refine hs.moves hpc rfl rfl rfl rfl trivial (.inl hup.1) fun x hx => ?_
  unfold aliveReads at hx
  split at hx
  · cases hx
  · exact hcore.walk_mem x hx

/-! ## `unlink_from_ring` in `task_stop` -/

theorem Safe.unlinkStart (hs : Safe D c l z owner) {own : Bool}
    (hpc : c.pc c.sched.running = .unlinkStart t own)
    (he : stmt c.sched (.unlinkStart t own) = some e) : Sound D (c.apply e) := by
  have hcore := hs.core
  have hleave := hs.here
  rw [hpc] at hcore hleave
  have h0 : c.sched.taskRing ≠ 0 := hcore.tail_ne_zero
  obtain rfl := Option.some.inj he
  rw [if_neg (by simp [h0, hcore.mem_ne_zero hleave.1])]
  exact hs.walks hpc rfl rfl rfl rfl trivial hleave (by simp)

/-- The ring has at least two tasks: the one to take out and `init_task`. -/
theorem Safe.unlinkOne (hs : Safe D c l z owner) {own : Bool}
    (hpc : c.pc c.sched.running = .unlinkOne t own)
    (he : stmt c.sched (.unlinkOne t own) = some e) : Sound D (c.apply e) := by
  have hcore := hs.core
  have hleave := hs.here
  rw [hpc] at hcore hleave
  have htail : c.sched.taskRing ∈ l := hcore.ring.tail_mem
  have hmore : c.sched.next c.sched.taskRing ≠ c.sched.taskRing := by
    intro hone
    have hl : l = [c.sched.taskRing] := hcore.ring.eq_singleton hone
    have hi := hcore.init
    have ht := hleave.1
    rw [hl, List.mem_singleton] at hi ht
    exact hleave.2.1 (ht.trans hi.symm)
  rw [stmt, if_neg hmore] at he
  obtain rfl := Option.some.inj he
  exact hs.walks hpc rfl rfl rfl rfl trivial hleave
    (by simpa using htail)

theorem Safe.unlinkPrev (hs : Safe D c l z owner) {own : Bool}
    (hpc : c.pc c.sched.running = .unlinkPrev t own)
    (he : stmt c.sched (.unlinkPrev t own) = some e) : Sound D (c.apply e) := by
  have hleave := hs.here
  rw [hpc] at hleave
  obtain rfl := Option.some.inj he
  exact hs.walks hpc rfl rfl rfl rfl trivial ⟨hleave, rfl⟩
    (by simp)

theorem Safe.unlinkFirst (hs : Safe D c l z owner) {prev : Nat} {own : Bool}
    (hpc : c.pc c.sched.running = .unlinkFirst t prev own)
    (he : stmt c.sched (.unlinkFirst t prev own) = some e) : Sound D (c.apply e) := by
  have hcore := hs.core
  have hhere := hs.here
  rw [hpc] at hcore hhere
  obtain ⟨hleave, hprev⟩ := hhere
  have htail : c.sched.taskRing ∈ l := hcore.ring.tail_mem
  obtain rfl := Option.some.inj he
  obtain ⟨x, y, rfl⟩ := List.exists_cons_of_ne_nil (List.ne_nil_of_mem htail)
  have hx : c.sched.next c.sched.taskRing = x := hcore.ring.path.1
  refine hs.walks hpc rfl rfl rfl rfl trivial
    ⟨hleave, [], y, ?_, by simp, hprev⟩ (by simpa using htail)
  rw [hx]
  rfl

theorem Safe.unlinkTest (hs : Safe D c l z owner) {prev it : Nat} {own : Bool}
    (hpc : c.pc c.sched.running = .unlinkTest t prev it own)
    (he : stmt c.sched (.unlinkTest t prev it own) = some e) : Sound D (c.apply e) := by
  have hhere := hs.here
  rw [hpc] at hhere
  obtain ⟨hleave, x, y, hl, htx, hprev⟩ := hhere
  obtain rfl := Option.some.inj he
  by_cases hit : it = t
  · subst hit
    rw [if_pos rfl]
    exact hs.walks hpc rfl rfl rfl rfl trivial
      ⟨hleave, rfl, x, y, hl, hprev⟩ (by simp)
  · rw [if_neg hit]
    refine hs.walks hpc rfl rfl rfl rfl trivial
      ⟨hleave, x, y, hl, ?_⟩ (by simp)
    simp only [List.mem_append, List.mem_singleton, not_or]
    exact ⟨htx, Ne.symm hit⟩

theorem Safe.unlinkNext (hs : Safe D c l z owner) {it : Nat} {own : Bool}
    (hpc : c.pc c.sched.running = .unlinkNext t it own)
    (he : stmt c.sched (.unlinkNext t it own) = some e) : Sound D (c.apply e) := by
  have hcore := hs.core
  have hhere := hs.here
  rw [hpc] at hcore hhere
  obtain ⟨hleave, x, y, hl, htx⟩ := hhere
  have hpath : Path c.sched.next (c.sched.next c.sched.taskRing) l
      (c.sched.next c.sched.taskRing) := hcore.ring.path
  obtain rfl := Option.some.inj he
  have hit : it ∈ l := by simp [hl]
  refine hs.walks hpc rfl rfl rfl rfl trivial
    ⟨hleave, x ++ [it], y, by simp [hl], by simp, htx, by simp, ?_⟩ (by simpa using hit)
  rw [hl] at hpath
  obtain ⟨m, -, hm, hrest⟩ := path_append.mp hpath
  exact hm ▸ hrest

/-- The walk does not come back to its start before it has met `t`. -/
theorem Safe.unlinkCompare (hs : Safe D c l z owner) {prev it : Nat} {own : Bool}
    (hpc : c.pc c.sched.running = .unlinkCompare t prev it own)
    (he : stmt c.sched (.unlinkCompare t prev it own) = some e) : Sound D (c.apply e) := by
  have hcore := hs.core
  have hhere := hs.here
  rw [hpc] at hcore hhere
  obtain ⟨hleave, x, y, hl, hx, htx, hprev, hpath⟩ := hhere
  have htail : c.sched.taskRing ∈ l := hcore.ring.tail_mem
  have hstart : c.sched.next c.sched.taskRing ∉ l.tail := hcore.ring.start_notMem
  obtain rfl := Option.some.inj he
  cases y with
  | nil =>
    rw [List.append_nil] at hl
    exact absurd (hl ▸ hleave.1) htx
  | cons i y =>
    have hi : it = i := hpath.1
    subst hi
    have hne : it ≠ c.sched.next c.sched.taskRing := by
      rintro rfl
      obtain ⟨x0, x1, rfl⟩ := List.exists_cons_of_ne_nil hx
      exact hstart (by simp [hl])
    rw [if_neg hne]
    exact hs.walks hpc rfl rfl rfl rfl trivial
      ⟨hleave, x, y, hl, htx, hprev⟩ (by simpa using htail)

/-- The first write takes the task out of the ring; `task_ring` may still point
to it. -/
theorem Safe.unlinkSet (hs : Safe D c l z owner) {prev it : Nat} {own : Bool}
    (hpc : c.pc c.sched.running = .unlinkSet t prev it own)
    (he : stmt c.sched (.unlinkSet t prev it own) = some e) : Sound D (c.apply e) := by
  obtain ⟨-, d, hc⟩ := hs.mine
  have hcore := hs.core
  have hhere := hs.here
  rw [hpc] at hc hcore hhere
  obtain ⟨hleave, rfl, x, y, rfl, rfl⟩ := hhere
  obtain ⟨-, hti, hown⟩ := hleave
  obtain rfl := Option.some.inj he
  have hsub : ∀ a ∈ x ++ y, a ∈ x ++ it :: y := fun a ha => by
    simp only [List.mem_append, List.mem_cons] at ha ⊢
    tauto
  have hmem : ∀ a, a ∈ x ++ it :: y → a ≠ it → a ∈ x ++ y := fun a ha hne => by
    simp only [List.mem_append, List.mem_cons] at ha ⊢
    tauto
  have hinit : initTask ∈ x ++ y := hmem _ hcore.init (Ne.symm hti)
  have hout : it ∉ x ++ y := (List.nodup_cons.mp (List.nodup_middle.mp hcore.ring.nodup)).1
  have honly := setNext_onlyRing c.sched (prevOf c.sched.taskRing x) (c.sched.next it)
  have hprev : prevOf c.sched.taskRing x ≠ it := hcore.ring.prevOf_ne (List.ne_nil_of_mem hinit)
  have hring := hcore.ring.remove (List.ne_nil_of_mem hinit)
  rw [← setNext_next] at hring
  have hup : own = false → Up c.sched (x ++ it :: y) c.sched.running ∧ it ≠ c.sched.running := by
    rintro rfl
    exact ⟨hown.2, hown.1⟩
  have hcur : (c.sched.setNext (prevOf c.sched.taskRing x) (c.sched.next it)).next
      c.sched.running ∈ x ++ y := by
    cases own with
    | true =>
      have hself : it = c.sched.running := hown
      rw [setNext_next, ← hself, Function.update_of_ne (Ne.symm hprev)]
      exact hmem _ (hcore.ring.next_mem (by simp))
        (hcore.ring.next_ne (by simp) hcore.init (Ne.symm hti))
    | false =>
      exact hring.next_mem (hmem _ (hup rfl).1.1 (Ne.symm (hup rfl).2))
  refine ⟨x ++ y, z, owner, hs.apply honly.current (hcore.onlyRing honly ?_ hsub hinit hcur)
    ⟨trivial, d, OnlyRing.chain honly hc⟩ ⟨rfl, hout, ?_⟩ (fun b _ _ => OnlyRing.frame honly hsub)
    (fun a _ => honly.state a) (fun a ha => ?_) fun a ha => by cases ha⟩
  · simp only [eq_comm (a := it)] at hring
    exact hring
  · cases own with
    | true => trivial
    | false =>
      obtain ⟨hupme, hne⟩ := hup rfl
      exact ⟨hmem _ hupme.1 (Ne.symm hne), fun hz => hupme.2 ((OnlyRing.zombie honly).mp hz)⟩
  · have ha : a = prevOf c.sched.taskRing x ∨ a = it := by simpa using ha
    rcases ha with rfl | rfl
    · exact hcore.not_gone hcore.ring.prevOf_mem
    · exact hcore.not_gone (by simp)

/-- The second write: `task_ring` is in the ring again. -/
theorem Safe.unlinkTail (hs : Safe D c l z owner) {prev it : Nat} {own : Bool}
    (hpc : c.pc c.sched.running = .unlinkTail t prev it own)
    (he : stmt c.sched (.unlinkTail t prev it own) = some e) : Sound D (c.apply e) := by
  obtain ⟨-, d, hc⟩ := hs.mine
  have hcore := hs.core
  have hhere := hs.here
  rw [hpc] at hc hcore hhere
  obtain ⟨rfl, hout, hown⟩ := hhere
  obtain rfl := Option.some.inj he
  have honly : OnlyRing c.sched
      { c.sched with taskRing := if c.sched.taskRing = it then prev else c.sched.taskRing } :=
    ⟨fun _ => rfl, rfl, rfl, rfl, rfl, rfl, rfl, rfl, rfl⟩
  cases own with
  | true =>
    exact ⟨l, z, owner, hs.apply rfl
      (hcore.onlyRing honly hcore.ring (fun _ hx => hx) hcore.init hcore.cur)
      (Held.nothing rfl rfl trivial) trivial (fun b _ _ => OnlyRing.frame honly fun _ hx => hx)
      (fun _ _ => rfl) (fun x hx => by cases hx) fun x hx => by cases hx⟩
  | false =>
    exact ⟨l, z, owner, hs.apply rfl
      (hcore.onlyRing honly hcore.ring (fun _ hx => hx) hcore.init hcore.cur)
      ⟨hout, d, OnlyRing.chain honly hc⟩ hown (fun b _ _ => OnlyRing.frame honly fun _ hx => hx)
      (fun _ _ => rfl) (fun x hx => by cases hx) fun x hx => by cases hx⟩

end KernelC.Multitask.Preempt
