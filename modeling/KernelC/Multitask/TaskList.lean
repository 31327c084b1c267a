import KernelC.Multitask.Runs

/-!
# Listing the tasks

`task_list` walks the ring from `task_ring->next` and fills the caller's buffer, which is
memory of its own, until it comes back or has reached the limit. The limit is a `size_t`
that is compared as an `int`: the walk stops at `limit max` tasks (`taskList_spec`), which
is `max` only below 2^31.

Result: `task_list_iff`, for every state that is reached.
-/

namespace KernelC.Multitask

structure TaskInfo where
  pid : Int
  state : TaskState

def Sched.info (s : Sched) (a : Nat) : TaskInfo :=
  { pid := (s.task a).pid, state := (s.task a).state }

def taskListLoop (s : Sched) (max : Int) :
    Nat → Nat → Nat → (Nat → TaskInfo) → Option ((Nat → TaskInfo) × Nat)
  | 0, _, _, _ => none
  | k + 1, it, count, buf =>
    if max ≤ count then some (buf, count)
    else
      let buf := Function.update buf count (s.info it)
      if s.next it = s.next s.taskRing then some (buf, count + 1)
      else taskListLoop s max k (s.next it) (count + 1) buf

/-- Returns the buffer and the number of tasks. -/
def taskList (s : Sched) (buf : Nat → TaskInfo) (max : UInt64) :
    Option (Sched × (Nat → TaskInfo) × Nat) :=
  if s.taskRing = 0 then some (s, buf, 0)
  else
    (taskListLoop s (int32 max.toNat) (2 ^ 64) (s.next s.taskRing) 0 buf).map fun r =>
      (s, r.1, r.2)

variable {s : Sched}

/-- From `count` on, the buffer `buf'` holds the first `n` of the tasks `l`, and otherwise
what `buf` holds. -/
structure Filled (s : Sched) (buf buf' : Nat → TaskInfo) (count n : Nat) (l : List Nat) : Prop where
  entry : ∀ i a, l[i]? = some a → i < n → buf' (count + i) = s.info a
  rest : ∀ j, j < count ∨ count + n ≤ j → buf' j = buf j

theorem Filled.none (buf : Nat → TaskInfo) (count : Nat) (l : List Nat) :
    Filled s buf buf count 0 l :=
  ⟨fun _ _ _ hi => absurd hi (Nat.not_lt_zero _), fun _ _ => rfl⟩

/-- One more task in front. -/
theorem Filled.cons {buf buf' : Nat → TaskInfo} {count n a : Nat} {l : List Nat}
    (h : Filled s (Function.update buf count (s.info a)) buf' (count + 1) n l) :
    Filled s buf buf' count (n + 1) (a :: l) := by
  constructor
  · intro i b hb hi
    cases i with
    | zero =>
      obtain rfl := Option.some.inj hb
      rw [Nat.add_zero, h.rest count (Or.inl (Nat.lt_succ_self _)), Function.update_self]
    | succ i =>
      rw [show count + (i + 1) = count + 1 + i by omega]
      exact h.entry i b hb (by omega)
  · intro j hj
    rw [h.rest j (by omega), Function.update_of_ne (by omega)]

theorem taskListLoop_spec (max : Int) (it count : Nat) (buf : Nat → TaskInfo) {k : Nat}
    {l : List Nat} (h : Path s.next it (it :: l) (s.next s.taskRing))
    (hs : s.next s.taskRing ∉ l) (hk : l.length < k) :
    ∃ buf', taskListLoop s max k it count buf =
        some (buf', count + min (max - count).toNat (l.length + 1)) ∧
      Filled s buf buf' count (min (max - count).toNat (l.length + 1)) (it :: l) := by
  induction l generalizing it k count buf with
  | nil =>
    obtain ⟨k, rfl⟩ : ∃ i, k = i + 1 := ⟨k - 1, by simp only [List.length_nil] at hk; omega⟩
    have hend : s.next it = s.next s.taskRing := h.2
    rw [taskListLoop]
    by_cases hmax : max ≤ count
    · rw [if_pos hmax, show min (max - count).toNat (([] : List Nat).length + 1) = 0 by omega]
      exact ⟨buf, rfl, Filled.none _ _ _⟩
    · rw [if_neg hmax, if_pos hend,
        show min (max - count).toNat (([] : List Nat).length + 1) = 1 by
          simp only [List.length_nil]; omega]
      exact ⟨_, rfl, (Filled.none _ _ _).cons⟩
  | cons y l ih =>
    rw [List.length_cons] at hk
    obtain ⟨k, rfl⟩ : ∃ i, k = i + 1 := ⟨k - 1, by omega⟩
    obtain ⟨-, hy, hl⟩ := h
    have hgo : s.next it ≠ s.next s.taskRing :=
      fun he => hs (by rw [← he, hy]; exact List.mem_cons_self)
    rw [taskListLoop]
    by_cases hmax : max ≤ count
    · rw [if_pos hmax, show min (max - count).toNat ((y :: l).length + 1) = 0 by omega]
      exact ⟨buf, rfl, Filled.none _ _ _⟩
    · obtain ⟨buf', hloop, hfilled⟩ := ih y (count + 1) (Function.update buf count (s.info it))
        (k := k) ⟨rfl, hl⟩ (fun hm => hs (List.mem_cons_of_mem _ hm)) (by omega)
      have hmin : min (max - count).toNat ((y :: l).length + 1) =
          min (max - (count + 1 : Nat)).toNat (l.length + 1) + 1 := by
        rw [List.length_cons]
        omega
      rw [if_neg hmax, if_neg hgo, hy, hmin]
      refine ⟨buf', hloop.trans ?_, hfilled.cons⟩
      rw [Nat.add_assoc, Nat.add_comm 1]

/-- The limit as an `int`. -/
def limit (max : UInt64) : Nat := (int32 max.toNat).toNat

theorem taskList_spec {l : List Nat} (h : Ring s.next s.taskRing l) (h0 : s.taskRing ≠ 0)
    (hlen : l.length ≤ 2 ^ 64) (buf : Nat → TaskInfo) (max : UInt64) :
    ∃ buf', taskList s buf max = some (s, buf', min (limit max) l.length) ∧
      Filled s buf buf' 0 (min (limit max) l.length) l := by
  obtain ⟨x, r, rfl⟩ := List.exists_cons_of_ne_nil (List.ne_nil_of_mem h.tail_mem)
  have hpath := h.path
  have hx : s.next s.taskRing = x := hpath.1
  have hnot : s.next s.taskRing ∉ r := h.start_notMem
  rw [hx] at hpath
  rw [List.length_cons] at hlen
  obtain ⟨buf', hloop, hfilled⟩ := taskListLoop_spec (int32 max.toNat) x 0 buf (k := 2 ^ 64)
    (by rw [hx]; exact hpath) hnot (by omega)
  rw [Nat.cast_zero, Int.sub_zero, Nat.zero_add] at hloop
  rw [Nat.cast_zero, Int.sub_zero] at hfilled
  refine ⟨buf', ?_, hfilled⟩
  unfold taskList
  rw [if_neg h0, hx, hloop]
  rfl

/-- Where the limit as an `int` is the limit. -/
theorem limit_right_iff (max : UInt64) {n : Nat} (hn : 0 < n) :
    min (limit max) n = min max.toNat n ↔
      max.toNat < 2 ^ 31 ∨ max.toNat % 2 ^ 32 < 2 ^ 31 ∧ n ≤ max.toNat % 2 ^ 32 := by
  unfold limit int32
  omega

/-- In every state that is reached: for every buffer and every limit, `task_list` returns
the smaller of the limit and the number of tasks, with that many tasks in the buffer in
ring order, the rest of the buffer and the scheduler as they were, exactly when the limit
is below 2^31, or is still not below the number of tasks when it is cut to an `int`. -/
theorem task_list_iff (task : Nat → Task) (stack : Nat → Nat) {os : List Op} {s : Sched}
    (hr : Run step Permitted (start task stack) os s) :
    ∃ l, Ring s.next s.taskRing l ∧ ∀ (buf : Nat → TaskInfo) (max : UInt64),
      (∃ buf', taskList s buf max = some (s, buf', min max.toNat l.length) ∧
        (∀ i a, l[i]? = some a → i < min max.toNat l.length → buf' i = s.info a) ∧
        ∀ i, min max.toNat l.length ≤ i → buf' i = buf i) ↔
      max.toNat < 2 ^ 31 ∨ max.toNat % 2 ^ 32 < 2 ^ 31 ∧ l.length ≤ max.toNat % 2 ^ 32 := by
  obtain ⟨l, z, hinv⟩ := run_permitted hr
  have hring := hinv.lists.ring
  have hlen := hinv.owned.length_le hring.nodup
  have hpos : 0 < l.length := List.length_pos_of_mem hring.tail_mem
  refine ⟨l, hring, fun buf max => ?_⟩
  obtain ⟨buf', hlist, hfilled⟩ := taskList_spec hring hinv.taskRing_ne_zero hlen buf max
  rw [← limit_right_iff max hpos]
  constructor
  · rintro ⟨buf'', hlist', -⟩
    rw [hlist] at hlist'
    exact (Prod.mk.inj (Prod.mk.inj (Option.some.inj hlist')).2).2
  · intro hmin
    rw [hmin] at hlist hfilled
    refine ⟨buf', hlist, fun i a ha hi => ?_, fun i hi => hfilled.rest i (Or.inr ?_)⟩
    · have hentry := hfilled.entry i a ha hi
      rwa [Nat.zero_add] at hentry
    · rwa [Nat.zero_add]

/-- The first task of a ring of two. -/
theorem task_list_first :
    ∃ s l, Run step Permitted (start (fun _ => noTask) fun _ => 0) schedDemo s ∧
      Ring s.next s.taskRing l ∧
      ∃ buf', taskList s (fun _ => ⟨0, .ready⟩) 1 = some (s, buf', min 1 l.length) := by
  have hexec : (exec step Permitted (start (fun _ => noTask) fun _ => 0) schedDemo).isSome := by
    decide +kernel
  obtain ⟨s, hs⟩ := Option.isSome_iff_exists.mp hexec
  obtain ⟨l, hring, hlist⟩ := task_list_iff (fun _ => noTask) (fun _ => 0) (Run.of_exec hs)
  obtain ⟨buf', hbuf, -⟩ := (hlist (fun _ => ⟨0, .ready⟩) 1).mpr (Or.inl (by decide))
  exact ⟨s, l, Run.of_exec hs, hring, buf', hbuf⟩

/-- With the limit 2^31 nothing is listed. -/
theorem task_list_empty :
    let s := start (fun _ => noTask) fun _ => 0
    Run step Permitted s [] s ∧ Ring s.next s.taskRing [initTask] ∧
      (taskList s (fun _ => ⟨0, .ready⟩) 0x80000000).map (fun r => r.2.2) = some 0 ∧
      min (0x80000000 : UInt64).toNat [initTask].length = 1 := by
  refine ⟨Run.nil _, ?_, by decide +kernel, by decide⟩
  exact ⟨⟨rfl, rfl⟩, rfl, List.nodup_singleton _⟩

end KernelC.Multitask
