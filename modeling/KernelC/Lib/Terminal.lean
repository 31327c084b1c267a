import Mathlib.Logic.Function.Iterate

/-!
# An unbounded terminal and a window onto it

A terminal has rows without end, a cursor and the first row `top` of a window of
`h` rows. Output moves the cursor on; when the cursor leaves the last row of the
window, the window slides down by one row.

`Window w h blank t win x y` says that a screen of `h` rows and `w` columns with
the contents `win` and the cursor `(x, y)` shows the window of `t`, and that the
rows below are still blank. The rules say which screens show what a terminal
becomes: `Window.write`, `Window.right`, `Window.down` and, where the window
slides, `Window.slide`; for a cursor that goes back, `Window.left` and `Window.up`.

Read along its rows, a terminal is a tape: `tape w t i` is cell `i`, `pos w t` the
cursor. `puts_spec` and `erases_spec` say what printing and erasing do to the tape.
-/

namespace KernelC

variable {α : Type*}

structure Terminal (α : Type*) where
  cell : Nat → Nat → α
  top : Nat
  row : Nat
  col : Nat

namespace Terminal

/-- Put `a` at the cursor. -/
def write (t : Terminal α) (a : α) : Terminal α :=
  { t with cell := fun r c => if r = t.row ∧ c = t.col then a else t.cell r c }

/-- The cursor goes to the start of the next row, and the window follows it. -/
def newline (h : Nat) (t : Terminal α) : Terminal α :=
  { t with
    row := t.row + 1
    col := 0
    top := if t.row + 1 = t.top + h then t.top + 1 else t.top }

/-- The cursor goes one column on, or to the next row after the last column. -/
def advance (w h : Nat) (t : Terminal α) : Terminal α :=
  if t.col + 1 = w then t.newline h else { t with col := t.col + 1 }

def put (w h : Nat) (t : Terminal α) (a : α) : Terminal α := (t.write a).advance w h

/-- The cursor goes one column back, or to the end of the row before. -/
def back (w : Nat) (t : Terminal α) : Terminal α :=
  if t.col = 0 then { t with row := t.row - 1, col := w - 1 } else { t with col := t.col - 1 }

def erase (w : Nat) (blank : α) (t : Terminal α) : Terminal α := (t.back w).write blank

/-! ## The tape -/

def pos (w : Nat) (t : Terminal α) : Nat := t.row * w + t.col

def tape (w : Nat) (t : Terminal α) (i : Nat) : α := t.cell (i / w) (i % w)

variable {w h : Nat} {t : Terminal α}

theorem tape_write (hcol : t.col < w) (a : α) (i : Nat) :
    (t.write a).tape w i = if i = t.pos w then a else t.tape w i := by
  have hiff : i / w = t.row ∧ i % w = t.col ↔ i = t.pos w := by
    rw [Nat.div_mod_unique (by omega), pos]
    constructor
    · rintro ⟨rfl, -⟩
      rw [Nat.mul_comm, Nat.add_comm]
    · intro hi
      exact ⟨by rw [hi, Nat.mul_comm, Nat.add_comm], hcol⟩
  exact if_congr hiff rfl rfl

theorem pos_advance (hcol : t.col < w) :
    (t.advance w h).pos w = t.pos w + 1 ∧ (t.advance w h).col < w := by
  unfold advance
  split
  · next hlast =>
    refine ⟨?_, by show 0 < w; omega⟩
    show (t.row + 1) * w + 0 = t.row * w + t.col + 1
    rw [Nat.add_mul, Nat.one_mul]
    omega
  · exact ⟨rfl, by show t.col + 1 < w; omega⟩

theorem tape_advance (i : Nat) : (t.advance w h).tape w i = t.tape w i := by
  unfold advance
  split
  · rfl
  · rfl

theorem put_spec (hcol : t.col < w) (a : α) :
    (t.put w h a).col < w ∧ (t.put w h a).pos w = t.pos w + 1 ∧
    ∀ i, (t.put w h a).tape w i = if i = t.pos w then a else t.tape w i := by
  obtain ⟨hpos, hlt⟩ := pos_advance (t := t.write a) (h := h) hcol
  exact ⟨hlt, hpos, fun i => (tape_advance i).trans (tape_write hcol a i)⟩

/-- Printing writes from the cursor on and leaves the cursor behind it. -/
theorem puts_spec (hcol : t.col < w) (as : List α) :
    (as.foldl (put w h) t).col < w ∧ (as.foldl (put w h) t).pos w = t.pos w + as.length ∧
    ∀ i, i < t.pos w → (as.foldl (put w h) t).tape w i = t.tape w i := by
  induction as generalizing t with
  | nil => exact ⟨hcol, rfl, fun _ _ => rfl⟩
  | cons a as ih =>
    obtain ⟨hlt, hpos, hat⟩ := put_spec hcol a (h := h)
    obtain ⟨hlt', hpos', hat'⟩ := ih hlt
    refine ⟨hlt', ?_, fun i hi => ?_⟩
    · rw [List.foldl_cons, hpos', hpos, List.length_cons]
      omega
    · rw [List.foldl_cons, hat' i (by omega), hat i, if_neg (by omega)]

/-- The window of a terminal that started at the top ends at the cursor, or has not
moved. -/
theorem puts_top (htop : t.top = t.row + 1 - h) (as : List α) :
    (as.foldl (put w h) t).top = (as.foldl (put w h) t).row + 1 - h := by
  induction as generalizing t with
  | nil => exact htop
  | cons a as ih =>
    refine ih ?_
    unfold put advance
    split
    · show (if t.row + 1 = t.top + h then t.top + 1 else t.top) = t.row + 1 + 1 - h
      split
      · omega
      · omega
    · exact htop

theorem erase_spec (blank : α) (hcol : t.col < w) (hpos : 0 < t.pos w) :
    (t.erase w blank).col < w ∧ (t.erase w blank).pos w + 1 = t.pos w ∧
    (t.erase w blank).top = t.top ∧
    ∀ i, (t.erase w blank).tape w i = if i + 1 = t.pos w then blank else t.tape w i := by
  have hback : (t.back w).col < w ∧ (t.back w).pos w + 1 = t.pos w ∧ (t.back w).top = t.top ∧
      (t.back w).cell = t.cell := by
    unfold back
    split
    · next hzero =>
      refine ⟨by show w - 1 < w; omega, ?_, rfl, rfl⟩
      unfold pos at hpos ⊢
      rw [hzero] at hpos ⊢
      cases hrow : t.row with
      | zero =>
        rw [hrow, Nat.zero_mul] at hpos
        omega
      | succ r =>
        simp only [Nat.add_sub_cancel]
        rw [Nat.add_mul, Nat.one_mul]
        omega
    · exact ⟨by show t.col - 1 < w; omega, by show t.row * w + (t.col - 1) + 1 = _; rw [pos]; omega,
        rfl, rfl⟩
  obtain ⟨hlt, hp, htop, hcell⟩ := hback
  refine ⟨hlt, hp, htop, fun i => ?_⟩
  have hat : (t.back w).tape w i = t.tape w i := by rw [tape, hcell, tape]
  rw [erase, tape_write hlt, hat]
  exact if_congr (by omega) rfl rfl

/-- Erasing blanks the cells before the cursor, and goes back over them. -/
theorem erases_spec (blank : α) (hcol : t.col < w) {n : Nat} (hpos : n ≤ t.pos w) :
    ((erase w blank)^[n] t).col < w ∧ ((erase w blank)^[n] t).pos w + n = t.pos w ∧
    ((erase w blank)^[n] t).top = t.top ∧
    ∀ i, ((erase w blank)^[n] t).tape w i =
      if i < t.pos w ∧ t.pos w ≤ i + n then blank else t.tape w i := by
  induction n with
  | zero => exact ⟨hcol, rfl, rfl, fun i => (if_neg (by omega)).symm⟩
  | succ n ih =>
    obtain ⟨hlt, hp, htop, hat⟩ := ih (by omega)
    obtain ⟨hlt', hp', htop', hat'⟩ := erase_spec blank hlt (by omega)
    rw [Function.iterate_succ_apply']
    refine ⟨hlt', by omega, htop'.trans htop, fun i => ?_⟩
    rw [hat', hat]
    by_cases hi : i + 1 = ((erase w blank)^[n] t).pos w
    · rw [if_pos hi, if_pos (by omega)]
    · rw [if_neg hi]
      exact if_congr (by omega) rfl rfl

end Terminal

/-- The screen `win` with its cursor shows the window of `t`. -/
structure Window (w h : Nat) (blank : α) (t : Terminal α) (win : Nat → Nat → α) (x y : Nat) :
    Prop where
  col : x = t.col
  row : t.top + y = t.row
  colLt : x < w
  rowLt : y < h
  cells : ∀ r < h, ∀ c < w, win r c = t.cell (t.top + r) c
  below : ∀ r, t.top + h ≤ r → ∀ c, t.cell r c = blank

namespace Window

variable {w h x y : Nat} {blank : α} {t : Terminal α} {win win' : Nat → Nat → α}

theorem write (hw : Window w h blank t win x y) (a : α)
    (heq : ∀ r < h, ∀ c < w, win' r c = if r = y ∧ c = x then a else win r c) :
    Window w h blank (t.write a) win' x y := by
  have hrow := hw.row
  have hlt := hw.rowLt
  refine ⟨hw.col, hrow, hw.colLt, hlt, fun r hr c hc => ?_, fun r hr c => ?_⟩
  · rw [heq r hr c hc, hw.cells r hr c hc]
    show _ = if t.top + r = t.row ∧ c = t.col then a else _
    have hiff : t.top + r = t.row ∧ c = t.col ↔ r = y ∧ c = x := by
      rw [hw.col, ← hrow, Nat.add_left_cancel_iff]
    simp only [hiff]
    rfl
  · show (if r = t.row ∧ c = t.col then a else t.cell r c) = blank
    have hr' : t.top + h ≤ r := hr
    rw [if_neg (by omega)]
    exact hw.below r hr c

/-- The cursor stays in its row. -/
theorem right (hw : Window w h blank t win x y) (hx : x + 1 < w) :
    Window w h blank (t.advance w h) win (x + 1) y := by
  unfold Terminal.advance
  rw [if_neg (by rw [← hw.col]; omega)]
  exact ⟨by rw [hw.col], hw.row, hx, hw.rowLt, hw.cells, hw.below⟩

theorem advance_of_last (hw : Window w h blank t win x y) (hx : x + 1 = w) :
    t.advance w h = t.newline h := by
  unfold Terminal.advance
  rw [if_pos (by rw [← hw.col, hx])]

/-- The next row is in the window. -/
theorem down (hw : Window w h blank t win x y) (hy : y + 1 < h) :
    Window w h blank (t.newline h) win 0 (y + 1) := by
  have hrow := hw.row
  have hlt := hw.colLt
  have htop : (t.newline h).top = t.top := by
    unfold Terminal.newline
    rw [if_neg (by omega)]
  refine ⟨rfl, ?_, by omega, hy, ?_, ?_⟩
  · rw [htop]
    show t.top + (y + 1) = t.row + 1
    omega
  · rw [htop]
    exact hw.cells
  · rw [htop]
    exact hw.below

/-- The cursor leaves the last row: every row goes up by one, and a blank one
comes in. -/
theorem slide (hw : Window w h blank t win x y) (hy : y + 1 = h)
    (hup : ∀ r, r + 1 < h → ∀ c < w, win' r c = win (r + 1) c)
    (hlast : ∀ c < w, win' (h - 1) c = blank) :
    Window w h blank (t.newline h) win' 0 (h - 1) := by
  have hrow := hw.row
  have hlt := hw.colLt
  have htop : (t.newline h).top = t.top + 1 := by
    unfold Terminal.newline
    rw [if_pos (by omega)]
  refine ⟨rfl, ?_, by omega, by omega, fun r hr c hc => ?_, fun r hr c => ?_⟩
  · rw [htop]
    show t.top + 1 + (h - 1) = t.row + 1
    omega
  · rw [htop]
    by_cases hr' : r + 1 < h
    · rw [hup r hr' c hc, hw.cells (r + 1) hr' c hc, Nat.add_assoc, Nat.add_comm 1 r]
      rfl
    · have hr1 : r = h - 1 := by omega
      subst hr1
      rw [hlast c hc]
      exact (hw.below _ (by omega) c).symm
  · rw [htop] at hr
    exact hw.below r (by omega) c

/-- The cursor goes back in its row. -/
theorem left (hw : Window w h blank t win x y) (hx : 0 < x) :
    Window w h blank (t.back w) win (x - 1) y := by
  have hlt := hw.colLt
  unfold Terminal.back
  rw [if_neg (by rw [← hw.col]; omega)]
  exact ⟨by rw [hw.col], hw.row, by omega, hw.rowLt, hw.cells, hw.below⟩

/-- The cursor goes back to the row above, which is in the window. -/
theorem up (hw : Window w h blank t win x y) (hx : x = 0) (hy : 0 < y) :
    Window w h blank (t.back w) win (w - 1) (y - 1) := by
  have hlt := hw.colLt
  have hrow := hw.row
  have hrowLt := hw.rowLt
  unfold Terminal.back
  rw [if_pos (by rw [← hw.col, hx])]
  refine ⟨rfl, ?_, by omega, by omega, hw.cells, hw.below⟩
  show t.top + (y - 1) = t.row - 1
  omega

end Window

end KernelC
