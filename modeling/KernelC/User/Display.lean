import KernelC.User.Terminal
import KernelC.Vga.Echo

/-!
# What the terminal shows

`terminal.asm` once more, with what it prints. The screen is not its own: `user_task1` draws the
clock on it at any time, and a program that the terminal has started prints until it has ended.
Through all of this the screen before the cursor shows the prompt and the line as it stands in the
buffer, and this line is what Enter starts.

Result: `seen_is_started`.
-/

namespace KernelC.User

open Vga

def white : UInt8 := 15

/-- `"$: "`. -/
def promptMsg : CStr := ⟨[0x24, 0x3A, 0x20], by simp⟩

/-- `"SimpleTerm v0.1"` and a newline. -/
def welcomeMsg : CStr :=
  ⟨[0x53, 0x69, 0x6D, 0x70, 0x6C, 0x65, 0x54, 0x65, 0x72, 0x6D, 0x20, 0x76, 0x30, 0x2E, 0x31, 0x0A],
    by simp⟩

/-! ## The others -/

/-- A system call of a program that prints. -/
inductive ScreenCall
  | vga (op : Op)
  | printCharPosition (c : UInt8) (x y : UInt32) (fore back : UInt8)
  | printStringPosition (str : CStr) (x y : UInt32) (fore back : UInt8)
  | setPosCursor (x y : UInt8)

def ScreenCall.run (v : Console) : ScreenCall → Console
  | .vga op => op.run v
  | .printCharPosition c x y fore back => Vga.printCharPosition v c x y fore back
  | .printStringPosition str x y fore back => Vga.printStringPosition v str x y fore back
  | .setPosCursor x y => updateHardwareCursor v x y

/-- What happens to the screen while a program runs. -/
inductive Foreign
  | task1 (s : Nat × UInt8)
  | program (call : ScreenCall)

def Foreign.run (v : Console) : Foreign → Console
  | .task1 s => pokeByte v s
  | .program call => call.run v

/-! ## `terminal.asm` with its output -/

structure Display where
  shell : Shell
  console : Console

def Display.notBackspace (d : Display) (al : UInt8) : Option Display :=
  let al := if al = 0x01 then 32 else al
  (store d.shell al).map fun s =>
    { shell := { s with inputLen := s.inputLen + 1 }
      console := printChar d.console al white black }

def Display.notNewline (d : Display) (al : UInt8) : Option Display :=
  if al = 8 then
    if d.shell.inputLen = 0 then some d
    else
      some
        { shell := { d.shell with inputLen := d.shell.inputLen - 1 }
          console := backspace d.console }
  else d.notBackspace al

/-- `.child_ended`. -/
def Display.childEnded (d : Display) : Display :=
  { d with console := printString d.console promptMsg white black }

/-- `meanwhile` is what the screen sees between the newline and the end of the program. -/
def Display.notCtrlC (d : Display) (al : UInt8) (taskCreate : UInt64) (meanwhile : List Foreign) :
    Option Display :=
  if al = 10 then
    (store d.shell 0).map fun s =>
      let v := printChar d.console 10 white black
      Display.childEnded
        { shell :=
            { s with
              inputLen := 0
              started := s.started ++ [stringAt s.buf 0 8192]
              r15 := if taskCreate = 0 then s.r15 else taskCreate }
          console := meanwhile.foldl Foreign.run v }
  else d.notNewline al

/-- One turn of `.loop`. -/
def Display.turn (d : Display) (u : Turn) (meanwhile : List Foreign) : Option Display :=
  if u.al = 0 then some d
  else if u.al = 32 then some d
  else if u.al = 0x03 ∧ d.shell.r15 ≠ 0 then
    Display.notCtrlC { d with shell := { d.shell with r15 := 0 } } u.taskStop.toUInt8 u.taskCreate
      meanwhile
  else d.notCtrlC u.al u.taskCreate meanwhile

/-- From `_start` to `.loop`, with the stores between the two calls. -/
def Display.start (buf : Nat → UInt8) (v : Console) (between : List (Nat × UInt8)) : Display :=
  Display.childEnded
    { shell := User.start buf
      console := between.foldl pokeByte (printString v welcomeMsg white black) }

/-- A store of `user_task1`, or a turn of the terminal. -/
inductive Occurrence
  | task1 (s : Nat × UInt8)
  | loop (u : Turn) (meanwhile : List Foreign)

def Display.step (d : Display) : Occurrence → Option Display
  | .task1 s => some { d with console := pokeByte d.console s }
  | .loop u meanwhile => d.turn u meanwhile

/-- `user_task1` stores what it draws. -/
def Occurrence.Real : Occurrence → Prop
  | .task1 s => Drawn s
  | .loop _ meanwhile => ∀ s, .task1 s ∈ meanwhile → Drawn s

/-! ## It is the terminal -/

theorem notNewline_shell (d : Display) (al : UInt8) :
    (d.notNewline al).map Display.shell = notNewline d.shell al := by
  unfold Display.notNewline notNewline
  split
  · split
    · rfl
    · rfl
  · rw [Display.notBackspace, notBackspace, Option.map_map]
    rfl

theorem notCtrlC_shell (d : Display) (al : UInt8) (taskCreate : UInt64) (meanwhile : List Foreign) :
    (d.notCtrlC al taskCreate meanwhile).map Display.shell = notCtrlC d.shell al taskCreate := by
  unfold Display.notCtrlC notCtrlC
  split
  · rw [Option.map_map]
    rfl
  · exact notNewline_shell d al

theorem turn_shell (d : Display) (u : Turn) (meanwhile : List Foreign) :
    (d.turn u meanwhile).map Display.shell = turn d.shell u := by
  unfold Display.turn turn
  split
  · rfl
  split
  · rfl
  split
  · exact notCtrlC_shell _ _ _ _
  · exact notCtrlC_shell _ _ _ _

/-! ## The line in the buffer -/

def Shell.line (s : Shell) : List UInt8 := (List.range s.inputLen).map s.buf

theorem map_update_range (f : Nat → UInt8) (n : Nat) (b : UInt8) :
    (List.range n).map (Function.update f n b) = (List.range n).map f := by
  refine List.map_congr_left fun i hi => ?_
  exact Function.update_of_ne (Nat.ne_of_lt (List.mem_range.mp hi)) _ _

theorem stringAt_stored {buf : Nat → UInt8} {j m n : Nat} (hn : m < n) (hend : buf (j + m) = 0) :
    stringAt buf j n = ((List.range' j m).map buf).takeWhile (· ≠ 0) := by
  induction m generalizing j n with
  | zero =>
    obtain ⟨n, rfl⟩ : ∃ n', n = n' + 1 := ⟨n - 1, by omega⟩
    have hend' : buf j = 0 := hend
    rw [stringAt, if_pos hend']
    rfl
  | succ m ih =>
    obtain ⟨n, rfl⟩ : ∃ n', n = n' + 1 := ⟨n - 1, by omega⟩
    rw [stringAt, List.range'_succ, List.map_cons, List.takeWhile_cons]
    by_cases hj : buf j = 0
    · rw [if_pos hj, if_neg (by simp [hj])]
    · rw [if_neg hj, if_pos (by simp [hj]),
        ih (by omega) (by rw [Nat.add_assoc, Nat.add_comm 1]; exact hend)]

/-- What is passed to `SYSCALL_TASK_CREATE`: the line, up to its first NUL. -/
theorem started_line {s s' : Shell} (h : store s 0 = some s') :
    stringAt s'.buf 0 8192 = s.line.takeWhile (· ≠ 0) := by
  unfold store at h
  split at h
  · next hlt =>
    obtain rfl := Option.some.inj h
    dsimp only
    rw [stringAt_stored hlt (by rw [Nat.zero_add, Function.update_self]),
      ← List.range_eq_range', map_update_range]
    rfl
  · cases h

/-! ## One step -/

/-- The cursor is on the screen and the controller shows it; before it stand the prompt and the
line, white on black. -/
structure Display.Shown (d : Display) : Prop where
  onScreen : OnScreen d.console
  sent : d.console.sent = d.console.position
  echo : Echo (makeColor white black) d.console (promptMsg.chars ++ d.shell.line)

variable {d d' : Display}

theorem task1_shown (h : d.Shown) {s : Nat × UInt8} (hs : Drawn s) :
    Display.Shown { d with console := pokeByte d.console s } :=
  ⟨⟨h.onScreen.x, h.onScreen.y⟩, h.sent, h.echo.pokeByte hs⟩

theorem printStringPosition_onScreen {v : Console} (h : OnScreen v) (str : CStr) (x y : UInt32)
    (fore back : UInt8) : OnScreen (printStringPosition v str x y fore back) := by
  have hspaces : ∀ (n : Nat) (color : UInt8) (p : Pen), OnScreen p.console →
      OnScreen (p.spaces color n).console := by
    intro n color p hp
    induction n generalizing p with
    | zero => exact hp
    | succ n ih => exact ih _ ⟨hp.x, hp.y⟩
  have hloop : ∀ (cs : List UInt8) (color : UInt8) (p : Pen), OnScreen p.console →
      OnScreen (positionLoop color cs p).console := by
    intro cs color p hp
    induction cs generalizing p with
    | nil => exact hp
    | cons c cs ih =>
      have hput : OnScreen (if c = 0x09 then p.spaces color (tabSize - p.col % tabSize).toNat
          else p.put c color).console := by
        split
        · exact hspaces _ _ _ hp
        · exact ⟨hp.x, hp.y⟩
      rw [positionLoop]
      generalize (if c = 0x09 then p.spaces color (tabSize - p.col % tabSize).toNat
          else p.put c color) = q at hput
      show OnScreen (if vgaWidth ≤ q.col.toNat then q else positionLoop color cs q).console
      split
      · exact hput
      · exact ih q hput
  exact hloop str.chars _ _ h

theorem foreign_onScreen {v : Console} (h : OnScreen v) (f : Foreign) : OnScreen (f.run v) := by
  cases f with
  | task1 s => exact ⟨h.x, h.y⟩
  | program call =>
    cases call with
    | vga op => exact op.onScreen h
    | printCharPosition c x y fore back =>
      show OnScreen (Vga.printCharPosition v c x y fore back)
      unfold Vga.printCharPosition
      split
      · exact h
      · exact ⟨h.x, h.y⟩
    | printStringPosition str x y fore back =>
      exact printStringPosition_onScreen h str x y fore back
    | setPosCursor x y => exact ⟨h.x, h.y⟩

theorem foreigns_onScreen {v : Console} (h : OnScreen v) (fs : List Foreign) :
    OnScreen (fs.foldl Foreign.run v) := by
  induction fs generalizing v with
  | nil => exact h
  | cons f fs ih => exact ih (foreign_onScreen h f)

/-- The prompt starts the line, wherever the cursor was left. -/
theorem childEnded_shown (h : OnScreen d.console) (hlen : d.shell.inputLen = 0) :
    d.childEnded.Shown := by
  have hline : d.childEnded.shell.line = [] := by
    show (List.range d.shell.inputLen).map d.shell.buf = []
    rw [hlen, List.range_zero, List.map_nil]
  have hmsg : ∀ c ∈ promptMsg.chars, c ≠ 0x0A := by simp [promptMsg]
  have hprompt := (echo_nil (makeColor white black) d.console).printString h hmsg
  rw [List.nil_append] at hprompt
  let prompt : Op := .print (.printString promptMsg white black)
  refine ⟨prompt.onScreen h, (op_follows_iff h prompt).mpr trivial, ?_⟩
  rw [hline, List.append_nil]
  exact hprompt

/-- A character goes to the end of the line and of what is shown. -/
theorem notBackspace_shown (h : d.Shown) {al : UInt8} (hal : al ≠ 10)
    (hd : d.notBackspace al = some d') : d'.Shown := by
  have hc : (if al = 0x01 then 32 else al) ≠ 0x0A := by
    split
    · decide
    · exact hal
  unfold Display.notBackspace at hd
  dsimp only at hd
  generalize (if al = 0x01 then 32 else al) = c at hc hd
  unfold store at hd
  split at hd
  · obtain rfl := Option.some.inj hd
    refine ⟨(Op.print (.printChar c white black)).onScreen h.onScreen, printChar_sent hc _ _ _, ?_⟩
    have hline : (List.range (d.shell.inputLen + 1)).map
        (Function.update d.shell.buf d.shell.inputLen c) = d.shell.line ++ [c] := by
      rw [List.range_succ, List.map_append, map_update_range, List.map_singleton,
        Function.update_self]
      rfl
    show Echo _ _ (promptMsg.chars ++ (List.range (d.shell.inputLen + 1)).map
      (Function.update d.shell.buf d.shell.inputLen c))
    rw [hline, ← List.append_assoc]
    exact h.echo.printChar h.onScreen hc
  · cases hd

/-- Backspace takes the last character from both. -/
theorem notNewline_shown (h : d.Shown) {al : UInt8} (hal : al ≠ 10)
    (hd : d.notNewline al = some d') : d'.Shown := by
  unfold Display.notNewline at hd
  split at hd
  · split at hd
    · obtain rfl := Option.some.inj hd
      exact h
    · next hlen =>
      obtain rfl := Option.some.inj hd
      refine ⟨backspace_onScreen h.onScreen, sent_update _ _ _, ?_⟩
      have hline : d.shell.line = (List.range (d.shell.inputLen - 1)).map d.shell.buf ++
          [d.shell.buf (d.shell.inputLen - 1)] := by
        rw [Shell.line, show d.shell.inputLen = d.shell.inputLen - 1 + 1 by omega, List.range_succ,
          List.map_append]
        rfl
      have hecho := h.echo
      rw [hline, ← List.append_assoc] at hecho
      exact hecho.backspace h.onScreen
  · exact notBackspace_shown h hal hd

theorem notCtrlC_shown (h : d.Shown) {al : UInt8} {taskCreate : UInt64} {meanwhile : List Foreign}
    (hd : d.notCtrlC al taskCreate meanwhile = some d') : d'.Shown := by
  unfold Display.notCtrlC at hd
  split at hd
  · obtain ⟨s, -, rfl⟩ := Option.map_eq_some_iff.mp hd
    exact childEnded_shown
      (foreigns_onScreen ((Op.print (.printChar 10 white black)).onScreen h.onScreen) meanwhile) rfl
  · next hal => exact notNewline_shown h hal hd

theorem step_shown (h : d.Shown) {o : Occurrence} (ho : o.Real) (hd : d.step o = some d') :
    d'.Shown := by
  cases o with
  | task1 s =>
    obtain rfl := Option.some.inj hd
    exact task1_shown h ho
  | loop u meanwhile =>
    change d.turn u meanwhile = some d' at hd
    unfold Display.turn at hd
    split at hd
    · obtain rfl := Option.some.inj hd
      exact h
    split at hd
    · obtain rfl := Option.some.inj hd
      exact h
    split at hd
    · exact notCtrlC_shown (d := { d with shell := { d.shell with r15 := 0 } })
        ⟨h.onScreen, h.sent, h.echo⟩ hd
    · exact notCtrlC_shown h hd

/-! ## Runs -/

def Occurrence.turn? : Occurrence → Option Turn
  | .task1 _ => none
  | .loop u _ => some u

/-- The turns of the terminal. -/
def turnsOf (os : List Occurrence) : List Turn := os.filterMap Occurrence.turn?

/-- The output stops no turn. -/
theorem run_shown {os : List Occurrence} (h : d.Shown) (hreal : ∀ o ∈ os, o.Real) {s : Shell}
    (hs : (turnsOf os).foldlM turn d.shell = some s) :
    ∃ d', os.foldlM Display.step d = some d' ∧ d'.shell = s ∧ d'.Shown := by
  induction os generalizing d with
  | nil => exact ⟨d, rfl, Option.some.inj hs, h⟩
  | cons o os ih =>
    have ho := hreal o List.mem_cons_self
    have hstep : ∃ d₁, d.step o = some d₁ ∧ (turnsOf os).foldlM turn d₁.shell = some s := by
      cases o with
      | task1 store => exact ⟨_, rfl, hs⟩
      | loop u meanwhile =>
        have hturns : turnsOf (.loop u meanwhile :: os) = u :: turnsOf os := rfl
        rw [hturns, List.foldlM_cons, ← turn_shell d u meanwhile, Option.bind_eq_bind,
          Option.bind_eq_some_iff] at hs
        obtain ⟨s₁, hs₁, hrest⟩ := hs
        obtain ⟨d₁, hd₁, rfl⟩ := Option.map_eq_some_iff.mp hs₁
        exact ⟨d₁, hd₁, hrest⟩
    obtain ⟨d₁, hd₁, hrest⟩ := hstep
    obtain ⟨d', hrun, hshell, hshown⟩ := ih (step_shown h ho hd₁)
      (fun o' ho' => hreal o' (List.mem_cons_of_mem _ ho')) hrest
    refine ⟨d', ?_, hshell, hshown⟩
    rw [List.foldlM_cons, hd₁]
    exact hrun

theorem start_shown (buf : Nat → UInt8) {v : Console} (hv : OnScreen v)
    (between : List (Nat × UInt8)) : (Display.start buf v between).Shown := by
  have hwelcome := (Op.print (.printString welcomeMsg white black)).onScreen hv
  have hbetween := foreigns_onScreen hwelcome (between.map .task1)
  rw [List.foldl_map] at hbetween
  exact childEnded_shown hbetween rfl

/-! ## What is started -/

theorem store_started {s s' : Shell} {b : UInt8} (h : store s b = some s') :
    s'.started = s.started := by
  unfold store at h
  split at h
  · obtain rfl := Option.some.inj h
    rfl
  · cases h

theorem notNewline_started {s s' : Shell} {al : UInt8} (h : notNewline s al = some s') :
    s'.started = s.started := by
  unfold notNewline at h
  split at h
  · split at h
    · obtain rfl := Option.some.inj h
      rfl
    · obtain rfl := Option.some.inj h
      rfl
  · obtain ⟨s₁, hstore, rfl⟩ := Option.map_eq_some_iff.mp h
    have hsame := store_started hstore
    exact hsame

theorem notCtrlC_started {s s' : Shell} {al : UInt8} {taskCreate : UInt64}
    (h : notCtrlC s al taskCreate = some s') :
    s'.started = s.started ∨ s'.started = s.started ++ [s.line.takeWhile (· ≠ 0)] := by
  unfold notCtrlC at h
  split at h
  · obtain ⟨s₁, hstore, rfl⟩ := Option.map_eq_some_iff.mp h
    refine .inr ?_
    dsimp only
    rw [started_line hstore, store_started hstore]
  · exact .inl (notNewline_started h)

/-- A turn starts nothing, or the line that is in the buffer, up to its first NUL. -/
theorem turn_started {s s' : Shell} {u : Turn} (h : turn s u = some s') :
    s'.started = s.started ∨ s'.started = s.started ++ [s.line.takeWhile (· ≠ 0)] := by
  unfold turn at h
  split at h
  · obtain rfl := Option.some.inj h
    exact .inl rfl
  split at h
  · obtain rfl := Option.some.inj h
    exact .inl rfl
  split at h
  · exact notCtrlC_started (s := { s with r15 := 0 }) h
  · exact notCtrlC_started h

/-- From any console with its cursor on the screen, whatever is typed, whatever the programs print
and wherever `user_task1` loses the CPU, as long as the line fits its buffer. In the state that is
reached the controller shows the cursor, and the screen before it ends with the prompt and the line
in the buffer, as far as the screen goes and outside the columns of the clock. What the next turn
starts, if anything, is this line, up to its first NUL. -/
theorem seen_is_started (buf : Nat → UInt8) {v : Console} (hv : OnScreen v)
    (between : List (Nat × UInt8)) {os : List Occurrence} (hreal : ∀ o ∈ os, o.Real) {s : Shell}
    (hs : (turnsOf os).foldlM turn (start buf) = some s) :
    ∃ d, os.foldlM Display.step (Display.start buf v between) = some d ∧ d.shell = s ∧ d.Shown ∧
      ∀ u s', turn s u = some s' →
        s'.started = s.started ∨ s'.started = s.started ++ [s.line.takeWhile (· ≠ 0)] := by
  obtain ⟨d, hrun, hshell, hshown⟩ := run_shown (start_shown buf hv between) hreal hs
  exact ⟨d, hrun, hshell, hshown, fun u s' => turn_started⟩

/-- `ht` with the clock drawn in between, then Backspace and Enter; the program clears the screen;
then `l`. -/
def clockedKeys : List Occurrence :=
  [.loop ⟨0x68, 0, 0⟩ [], .task1 (3980, 0x32), .loop ⟨0x74, 0, 0⟩ [], .loop ⟨0x08, 0, 0⟩ [],
    .loop ⟨0x0A, 0, 5⟩ [.program (.vga .cleanScreen), .task1 (3981, 0x0E)], .loop ⟨0x6C, 0, 0⟩ []]

theorem seen_is_started_clocked :
    ∃ s d, clockedKeys.foldlM Display.step (Display.start (fun _ => 0) bootConsole []) = some d ∧
      d.shell = s ∧ d.Shown ∧ s.started = [[0x68]] ∧ s.line = [0x6C] := by
  have hdrawn : Drawn (3980, 0x32) ∧ Drawn (3981, 0x0E) :=
    ⟨⟨⟨23, 0, 0⟩, 0, by decide⟩, ⟨⟨23, 0, 0⟩, 0, by decide⟩⟩
  have hreal : ∀ o ∈ clockedKeys, o.Real := by
    simp [clockedKeys, Occurrence.Real, hdrawn]
  have hrun : (((turnsOf clockedKeys).foldlM turn (start fun _ => 0)).map
      fun s => (s.started, s.line)) = some ([[0x68]], [0x6C]) := by
    decide +kernel
  obtain ⟨s, hs, hline⟩ := Option.map_eq_some_iff.mp hrun
  obtain ⟨hstarted, hlast⟩ := Prod.mk.inj hline
  obtain ⟨d, hd, hshell, hshown, -⟩ := seen_is_started (fun _ => 0)
    (v := bootConsole) ⟨by decide, by decide⟩ [] hreal hs
  exact ⟨s, d, hd, hshell, hshown, hstarted, hlast⟩

end KernelC.User
