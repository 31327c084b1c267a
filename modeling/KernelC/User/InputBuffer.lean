import KernelC.Lib.Level
import KernelC.User.LineEdit

/-!
# The buffer of the command line

The terminal never compares `input_len` with the size of its buffer. What a turn does
to `input_len` is a move of a level (`turn_view`): a character raises it, Backspace
lowers it, Enter resets it. So a line that is long enough runs out of the buffer, and
`input_in_buffer_iff` says which inputs do.
-/

namespace KernelC.User

/-- The character that `.not_ctrl_c` looks at, with the program `child` in `r15`. -/
def Turn.seen (u : Turn) (child : UInt64) : UInt8 :=
  if u.al = 0x03 ∧ child ≠ 0 then u.taskStop.toUInt8 else u.al

/-- What a character does to the length of the line. -/
def keyMove (al : UInt8) : Move :=
  if al = 10 then .reset else if al = 8 then .down else .up

/-- What a turn does to it. -/
def Turn.move (u : Turn) (child : UInt64) : Move :=
  if u.al = 0 ∨ u.al = 32 then .stay else keyMove (u.seen child)

/-- The program in `r15` after the turn. -/
def Turn.child (u : Turn) (child : UInt64) : UInt64 :=
  if u.move child = .reset ∧ u.taskCreate ≠ 0 then u.taskCreate
  else if u.al = 0x03 then 0
  else child

/-- The moves of an input. -/
def moves (child : UInt64) : List Turn → List Move
  | [] => []
  | u :: us => u.move child :: moves (u.child child) us

/-- A character and the terminator of a line are stored. -/
def Stores (x : Move) : Prop := x = .up ∨ x = .reset

instance (x : Move) : Decidable (Stores x) := inferInstanceAs (Decidable (_ ∨ _))

/-! ## One turn -/

/-- What decides about the next store. -/
def Shell.view (s : Shell) : Nat × UInt64 := (s.inputLen, s.r15)

theorem store_view (s : Shell) (b : UInt8) {f : Shell → Shell} {v : Nat × UInt64}
    (hf : ∀ buf, (f { s with buf := buf }).view = v) :
    ((store s b).map f).map Shell.view = if 8192 ≤ s.inputLen then none else some v := by
  unfold store
  by_cases hroom : s.inputLen < 8192
  · rw [if_pos hroom, if_neg (by omega), Option.map_some, Option.map_some, hf]
  · rw [if_neg hroom, if_pos (by omega)]
    rfl

theorem notCtrlC_view (s : Shell) (al : UInt8) (taskCreate : UInt64) :
    (notCtrlC s al taskCreate).map Shell.view =
      if Stores (keyMove al) ∧ 8192 ≤ s.inputLen then none
      else some ((keyMove al).apply s.inputLen,
        if keyMove al = .reset ∧ taskCreate ≠ 0 then taskCreate else s.r15) := by
  unfold notCtrlC keyMove
  by_cases henter : al = 10
  · simp only [if_pos henter, Stores, reduceCtorEq, false_or, true_and]
    refine store_view s 0 fun buf => ?_
    show (0, if taskCreate = 0 then s.r15 else taskCreate) = (0, _)
    rw [ite_not]
  rw [if_neg henter, if_neg henter]
  unfold notNewline
  by_cases hback : al = 8
  · simp only [if_pos hback, Stores, reduceCtorEq, or_self, false_and, if_false]
    by_cases h0 : s.inputLen = 0
    · rw [if_pos h0]
      show some (s.inputLen, s.r15) = some (s.inputLen - 1, s.r15)
      rw [h0]
    · rw [if_neg h0]
      rfl
  · simp only [if_neg hback, Stores, reduceCtorEq, or_false, true_and, false_and, if_false]
    exact store_view s _ fun buf => rfl

/-- A turn moves the length of the line, or stores behind the buffer. -/
theorem turn_view (s : Shell) (u : Turn) :
    (turn s u).map Shell.view =
      if Stores (u.move s.r15) ∧ 8192 ≤ s.inputLen then none
      else some ((u.move s.r15).apply s.inputLen, u.child s.r15) := by
  unfold turn Turn.child Turn.move
  by_cases h0 : u.al = 0
  · simp [h0, Stores, Move.apply, Shell.view]
  by_cases h32 : u.al = 32
  · simp [h32, Stores, Move.apply, Shell.view]
  have hkey : ¬ (u.al = 0 ∨ u.al = 32) := by rintro (h | h) <;> contradiction
  rw [if_neg h0, if_neg h32]
  simp only [if_neg hkey]
  unfold Turn.seen
  by_cases hctrl : u.al = 0x03 ∧ s.r15 ≠ 0
  · rw [if_pos hctrl, if_pos hctrl, if_pos hctrl.1, notCtrlC_view]
  · -- without a program, stopping it changes nothing
    have hchild : (if u.al = 0x03 then 0 else s.r15) = s.r15 := by
      split
      · next h3 =>
        by_contra hne
        exact hctrl ⟨h3, fun hz => hne hz.symm⟩
      · rfl
    rw [if_neg hctrl, if_neg hctrl, notCtrlC_view, hchild]

/-! ## All turns -/

theorem run_isSome_iff (s : Shell) (turns : List Turn) :
    (turns.foldlM turn s).isSome ↔
      ∀ p x rest, moves s.r15 turns = p ++ x :: rest → Stores x →
        p.foldl Move.apply s.inputLen < 8192 := by
  induction turns generalizing s with
  | nil => exact iff_of_true rfl fun p x rest h => by simp [moves] at h
  | cons u us ih =>
    have hview := turn_view s u
    rw [List.foldlM_cons, moves]
    by_cases hbad : Stores (u.move s.r15) ∧ 8192 ≤ s.inputLen
    · rw [if_pos hbad, Option.map_eq_none_iff] at hview
      rw [hview]
      refine iff_of_false (by simp) fun h => ?_
      have := h [] _ _ rfl hbad.1
      exact absurd hbad.2 (by simpa using this)
    · rw [if_neg hbad] at hview
      obtain ⟨s', hs', heq⟩ := Option.map_eq_some_iff.mp hview
      obtain ⟨hlen, hchild⟩ := Prod.mk.inj heq
      rw [hs']
      refine (ih s').trans ?_
      rw [hlen, hchild]
      constructor
      · intro h p x rest heq hx
        cases p with
        | nil =>
          obtain ⟨rfl, -⟩ := List.cons.inj heq
          exact Nat.lt_of_not_le fun hle => hbad ⟨hx, hle⟩
        | cons y p =>
          obtain ⟨rfl, hrest⟩ := List.cons.inj heq
          exact h p x rest hrest hx
      · intro h p x rest heq hx
        exact h (u.move s.r15 :: p) x rest (by rw [heq]; rfl) hx

/-- Every store of the terminal is inside the buffer of 8192 bytes exactly when, wherever a
character is stored or Enter pressed, no stretch of the input before it that has no Enter
in it has more than 8191 more characters than Backspaces. -/
theorem input_in_buffer_iff (buf : Nat → UInt8) (turns : List Turn) :
    (turns.foldlM turn (start buf)).isSome ↔
      ∀ p w x rest, moves 0 turns = p ++ w ++ x :: rest → Stores x → .reset ∉ w →
        w.count .up ≤ w.count .down + 8191 := by
  have hlevel : ∀ p : List Move, p.foldl Move.apply 0 < 8192 ↔
      ∀ w, w <:+ p → .reset ∉ w → w.count .up ≤ w.count .down + 8191 := fun p =>
    Nat.lt_succ_iff.trans (level_le_iff p 8191)
  rw [run_isSome_iff]
  show (∀ p x rest, moves 0 turns = p ++ x :: rest → Stores x → p.foldl Move.apply 0 < 8192) ↔ _
  simp only [hlevel]
  constructor
  · intro h p w x rest heq hx hw
    exact h (p ++ w) x rest heq hx w (List.suffix_append p w) hw
  · rintro h q x rest heq hx w ⟨p, rfl⟩ hw
    exact h p w x rest heq hx hw

theorem moves_letters (n : Nat) :
    moves 0 (typing (List.replicate n 0x61)) = List.replicate n .up := by
  induction n with
  | zero => rfl
  | succ n ih => exact congrArg (List.cons .up) ih

/-- The letter after the first 8192 of a line is stored behind the buffer. -/
theorem letters_outside (buf : Nat → UInt8) {n : Nat} (hn : 8192 ≤ n) :
    ¬ ((typing (List.replicate (n + 1) 0x61)).foldlM turn (start buf)).isSome := by
  rw [run_isSome_iff]
  intro h
  have hlt : (List.replicate n Move.up).foldl Move.apply 0 < 8192 :=
    h _ .up [] ((moves_letters (n + 1)).trans List.replicate_succ') (.inl rfl)
  have hcount := (level_le_iff _ 8191).mp (Nat.lt_succ_iff.mp hlt) _ List.suffix_rfl (by simp)
  rw [List.count_replicate_self, List.count_replicate, if_neg (by decide)] at hcount
  omega

/-- A line of 8193 letters. -/
theorem long_line_outside :
    ¬ ∀ (buf : Nat → UInt8) (turns : List Turn), (∀ u ∈ turns, Keyboard.Returned u.getchar) →
      (turns.foldlM turn (start buf)).isSome := by
  intro h
  have hret : ∀ u ∈ typing (List.replicate 8193 0x61), Keyboard.Returned u.getchar := by
    intro u hu
    obtain ⟨c, hc, rfl⟩ := List.mem_map.mp hu
    rw [List.eq_of_mem_replicate hc]
    exact returned_of_key [0x1E] (by decide)
  exact letters_outside (fun _ => 0) (Nat.le_refl 8192) (h _ _ hret)

end KernelC.User
