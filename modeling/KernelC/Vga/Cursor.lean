import KernelC.Vga.Backspace

/-!
# The cursor of the controller

The console has a cursor of its own, `x` and `y`; the controller shows the position
that `update_hardware_cursor` sent last. Two ways to move the one do not end in
telling the other: `clean_screen`, and `print_char` for a newline, which returns early
where `print_string` goes on to the update.

Result: `cursor_follows_iff`, over every sequence of calls.
-/

namespace KernelC.Vga

variable {v : Console}

inductive Op
  | cleanScreen
  | print (call : Call)
  | backspace

def Op.run (v : Console) : Op → Console
  | .cleanScreen => Vga.cleanScreen v
  | .print call => call.run v
  | .backspace => Vga.backspace v

/-- The position last sent to the controller. -/
def Console.sent (v : Console) : Nat := v.cursorHigh.toNat * 256 + v.cursorLow.toNat

def Console.position (v : Console) : Nat := v.y.toNat * 80 + v.x.toNat

structure OnScreen (v : Console) : Prop where
  x : v.x.toNat < 80
  y : v.y.toNat < 25

/-- When an operation leaves the controller at the position of the console, read off the
state before it. Clearing the screen needs the controller at its start already, a newline
of `print_char` the controller at the start of the row to come; every other operation
ends with the update. -/
def Op.Follows (v : Console) : Op → Prop
  | .cleanScreen => v.sent = 0
  | .print (.printChar c _ _) => c = 0x0A → v.sent = min (v.y.toNat + 1) 24 * 80
  | .print (.printString _ _ _) => True
  | .backspace => True

/-! ## What is sent -/

theorem sent_update (v : Console) (x y : UInt8) :
    (updateHardwareCursor v x y).sent = y.toNat * 80 + x.toNat := by
  have hx := x.toNat_lt
  have hy := y.toNat_lt
  unfold Console.sent updateHardwareCursor vgaWidth
  simp only [UInt8.toNat_ofNat', Nat.shiftRight_eq_div_pow]
  omega

theorem sent_foldl {f : Console → Nat → Console} (hf : ∀ v i, (f v i).sent = v.sent)
    (is : List Nat) (v : Console) : (is.foldl f v).sent = v.sent := by
  induction is generalizing v with
  | nil => rfl
  | cons i is ih => exact (ih (f v i)).trans (hf v i)

theorem sent_cleanScreen (v : Console) : (cleanScreen v).sent = v.sent := by
  have hstart : ∀ u : Console, ({ u with x := 0, y := 0 } : Console).sent = u.sent := fun _ => rfl
  unfold cleanScreen
  refine (hstart _).trans (sent_foldl ?_ _ _)
  exact fun _ _ => rfl

theorem sent_scrollScreen (v : Console) : (scrollScreen v).sent = v.sent := by
  have hrow : ∀ u : Console, (if 0 < u.y then { u with y := u.y - 1 } else u).sent = u.sent := by
    intro u
    split
    · rfl
    · rfl
  unfold scrollScreen
  refine (hrow _).trans ((sent_foldl ?_ _ _).trans (sent_foldl ?_ _ _))
  · exact fun _ _ => rfl
  · exact fun _ _ => rfl

theorem sent_nextRow (v : Console) : (nextRow v).sent = v.sent := by
  have hscroll := sent_scrollScreen { v with x := 0, y := v.y + 1 }
  unfold nextRow
  dsimp only
  generalize scrollScreen { v with x := 0, y := v.y + 1 } = u at hscroll ⊢
  split
  · exact hscroll
  · rfl

/-! ## Where the console is -/

theorem nextRow_position (h : OnScreen v) :
    (nextRow v).position = min (v.y.toNat + 1) 24 * 80 := by
  have hrow := h.y
  have hy := toNat_succ (n := v.y) (Nat.lt_trans h.y (by decide))
  unfold nextRow Console.position
  dsimp only
  by_cases hlast : vgaHeight ≤ (v.y + 1).toNat
  · rw [if_pos hlast]
    obtain ⟨hx, -⟩ := scrollScreen_spec { v with x := 0, y := v.y + 1 }
    generalize scrollScreen { v with x := 0, y := v.y + 1 } = u at hx ⊢
    have hheight : 25 ≤ v.y.toNat + 1 := hy ▸ hlast
    dsimp only
    rw [hx, Nat.min_eq_right (by omega)]
    rfl
  · rw [if_neg hlast]
    have hheight : ¬ 25 ≤ v.y.toNat + 1 := hy ▸ hlast
    dsimp only
    rw [hy, Nat.min_eq_left (by omega)]
    rfl

theorem backspace_onScreen (h : OnScreen v) : OnScreen (backspace v) := by
  by_cases hpos : 0 < v.x.toNat ∨ 0 < v.y.toNat
  · obtain ⟨hshows, -⟩ := backspace_shows (screenTerminal_shows h.x h.y) hpos
    exact ⟨hshows.colLt, hshows.rowLt⟩
  · -- at the start of the screen the cursor stays
    have hx : v.x = 0 := UInt8.toNat_inj.mp (by show v.x.toNat = 0; omega)
    have hy : ¬ 0 < v.y := fun hlt => hpos (Or.inr (UInt8.lt_iff_toNat_lt.mp hlt))
    unfold backspace
    simp only [if_pos hx, if_neg hy]
    exact ⟨h.x, h.y⟩

theorem Op.onScreen (h : OnScreen v) (op : Op) : OnScreen (op.run v) := by
  cases op with
  | cleanScreen =>
    have hshows := cleanScreen_shows v
    exact ⟨hshows.colLt, hshows.rowLt⟩
  | print call =>
    obtain ⟨hshows, -⟩ := run_shows (screenTerminal_shows h.x h.y) call
    exact ⟨hshows.colLt, hshows.rowLt⟩
  | backspace => exact backspace_onScreen h

theorem ops_onScreen (h : OnScreen v) (ops : List Op) : OnScreen (ops.foldl Op.run v) := by
  induction ops generalizing v with
  | nil => exact h
  | cons op ops ih => exact ih (op.onScreen h)

/-! ## One operation, and all of them -/

theorem printChar_sent {c : UInt8} (hc : c ≠ 0x0A) (v : Console) (fore back : UInt8) :
    (printChar v c fore back).sent = (printChar v c fore back).position := by
  unfold printChar
  rw [if_neg hc]
  exact sent_update _ _ _

theorem op_follows_iff (h : OnScreen v) (op : Op) :
    (op.run v).sent = (op.run v).position ↔ op.Follows v := by
  cases op with
  | cleanScreen =>
    obtain ⟨hx, hy, -⟩ := cleanScreen_spec v
    show (cleanScreen v).sent = (cleanScreen v).y.toNat * 80 + (cleanScreen v).x.toNat ↔ v.sent = 0
    rw [sent_cleanScreen, hx, hy]
    rfl
  | print call =>
    cases call with
    | printChar c fore back =>
      show _ ↔ (c = 0x0A → v.sent = min (v.y.toNat + 1) 24 * 80)
      by_cases hc : c = 0x0A
      · have hrun : (Op.print (.printChar c fore back)).run v = nextRow v :=
          show printChar v c fore back = _ by rw [printChar, if_pos hc]
        rw [hrun, sent_nextRow, nextRow_position h]
        exact ⟨fun hsent _ => hsent, fun hsent => hsent hc⟩
      · exact iff_of_true (printChar_sent hc v fore back) fun hno => absurd hno hc
    | printString str fore back => exact iff_of_true (sent_update _ _ _) trivial
  | backspace => exact iff_of_true (sent_update _ _ _) trivial

/-- From any console with its cursor on the screen, and any registers: the controller is
at the position of the console after each operation of a sequence exactly when each of them
is issued in a state that it can follow. -/
theorem cursor_follows_iff (v : Console) (hx : v.x.toNat < 80) (hy : v.y.toNat < 25)
    (ops : List Op) :
    (∀ pre op, pre ++ [op] <+: ops →
      ((pre ++ [op]).foldl Op.run v).sent = ((pre ++ [op]).foldl Op.run v).position) ↔
    ∀ pre op, pre ++ [op] <+: ops → op.Follows (pre.foldl Op.run v) := by
  have hstep : ∀ (pre : List Op) (op : Op),
      ((pre ++ [op]).foldl Op.run v).sent = ((pre ++ [op]).foldl Op.run v).position ↔
        op.Follows (pre.foldl Op.run v) := by
    intro pre op
    rw [List.foldl_append]
    exact op_follows_iff (ops_onScreen ⟨hx, hy⟩ pre) op
  constructor
  · exact fun h pre op hpre => (hstep pre op).mp (h pre op hpre)
  · exact fun h pre op hpre => (hstep pre op).mpr (h pre op hpre)

/-- The console at boot, with the controller at the start of the screen. -/
def bootConsole : Console :=
  { vid := fun _ => 0, x := 0, y := 0, cursorHigh := 0, cursorLow := 0, stray := false }

/-- A line printed by `print_string`, a letter, and the letter erased. -/
theorem cursor_follows_typing :
    let ops : List Op := [.print (.printString ⟨[0x61, 0x0A], by simp⟩ 7 0),
      .print (.printChar 0x62 7 0), .backspace]
    ∀ pre op, pre ++ [op] <+: ops →
      ((pre ++ [op]).foldl Op.run bootConsole).sent =
        ((pre ++ [op]).foldl Op.run bootConsole).position := by
  intro ops
  refine (cursor_follows_iff bootConsole (by decide) (by decide) ops).mpr fun pre op hpre => ?_
  have hmem : op ∈ ops := hpre.subset (List.mem_append_right _ List.mem_cons_self)
  simp only [ops, List.mem_cons, List.not_mem_nil, or_false] at hmem
  rcases hmem with rfl | rfl | rfl
  · exact trivial
  · exact fun hno => absurd hno (by decide)
  · exact trivial

/-- After a letter, neither a newline nor a clean screen reaches the controller: it still
shows position 1. -/
theorem newline_not_sent :
    let typed : Op := .print (.printChar 0x61 7 0)
    let newline := [typed, .print (.printChar 0x0A 7 0)].foldl Op.run bootConsole
    let clean := [typed, .cleanScreen].foldl Op.run bootConsole
    (newline.sent = 1 ∧ newline.position = 80) ∧ clean.sent = 1 ∧ clean.position = 0 := by
  intro typed newline clean
  obtain ⟨hx, hy, -⟩ := cleanScreen_spec (typed.run bootConsole)
  have hsent := sent_cleanScreen (typed.run bootConsole)
  refine ⟨by decide +kernel, hsent.trans (by decide +kernel), ?_⟩
  show (cleanScreen (typed.run bootConsole)).y.toNat * 80 +
    (cleanScreen (typed.run bootConsole)).x.toNat = 0
  rw [hx, hy]
  rfl

end KernelC.Vga
