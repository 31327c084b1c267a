import KernelC.Keyboard.Queue
import KernelC.User.Terminal

/-!
# Editing the command line

`edit` says what a character should do to the line that is typed. The terminal
does the same to its buffer (`Typed`) for every character but Ctrl+C. That one
falls through to the code that stores a character: it puts its own code into the
line, or, when a program was started before, the low byte of what
`SYSCALL_TASK_STOP` returned.

* `ctrl_c_in_line`: a line with Ctrl+C in it is not what is passed on.
* `line_editing`: without Ctrl+C the strings are the lines that were typed.
-/

namespace KernelC.User

/-! ## The line -/

structure Line where
  line : List UInt8
  entered : List (List UInt8)

def Line.empty : Line := ⟨[], []⟩

/-- What the character `c` does; 0 is no character. -/
def edit (e : Line) (c : UInt8) : Line :=
  if c = 0 then e
  else if c = 10 then ⟨[], e.entered ++ [e.line]⟩
  else if c = 8 then { e with line := e.line.dropLast }
  else if c = 0x03 then e
  else { e with line := e.line ++ [if c = 0x01 then 32 else c] }

/-- The line never exceeds the buffer, less its terminator. -/
def Fits (e : Line) : List UInt8 → Prop
  | [] => True
  | c :: cs => (edit e c).line.length ≤ 8191 ∧ Fits (edit e c) cs

instance instDecidableFits : (e : Line) → (cs : List UInt8) → Decidable (Fits e cs)
  | _, [] => inferInstanceAs (Decidable True)
  | e, c :: cs =>
    have := instDecidableFits (edit e c) cs
    inferInstanceAs (Decidable (_ ∧ _))

/-! ## One turn -/

/-- The line is in the buffer. -/
structure Typed (s : Shell) (e : Line) : Prop where
  len : s.inputLen = e.line.length
  bytes : ∀ i c, e.line[i]? = some c → s.buf i = c
  noNul : ∀ c ∈ e.line, c ≠ 0
  short : e.line.length ≤ 8191
  started : s.started = e.entered

variable {s : Shell} {e : Line}

theorem stringAt_eq {buf : Nat → UInt8} {l : List UInt8} {j n : Nat}
    (hbytes : ∀ i c, l[i]? = some c → buf (j + i) = c) (hnul : ∀ c ∈ l, c ≠ 0)
    (hend : buf (j + l.length) = 0) (hn : l.length < n) : stringAt buf j n = l := by
  induction l generalizing j n with
  | nil =>
    obtain ⟨m, rfl⟩ : ∃ m, n = m + 1 := ⟨n - 1, by simp only [List.length_nil] at hn; omega⟩
    have hend' : buf j = 0 := hend
    rw [stringAt, if_pos hend']
  | cons b l ih =>
    rw [List.length_cons] at hn hend
    obtain ⟨m, rfl⟩ : ∃ m, n = m + 1 := ⟨n - 1, by omega⟩
    have hb : buf j = b := hbytes 0 b rfl
    have hrest : stringAt buf (j + 1) m = l := by
      refine ih (fun i c hi => ?_) (fun c hc => hnul c (List.mem_cons_of_mem _ hc)) ?_ (by omega)
      · rw [Nat.add_assoc, Nat.add_comm 1 i]
        exact hbytes (i + 1) c hi
      · rw [Nat.add_assoc, Nat.add_comm 1]
        exact hend
    rw [stringAt, hb, if_neg (hnul b List.mem_cons_self), hrest]

theorem store_eq (h : Typed s e) (b : UInt8) :
    store s b = some { s with buf := Function.update s.buf e.line.length b } := by
  have hlen := h.len
  have hshort := h.short
  unfold store
  rw [if_pos (by omega), hlen]

/-- The bytes of the line stay when one is stored behind them. -/
theorem Typed.update (h : Typed s e) (b : UInt8) {i : Nat} {c : UInt8} (hc : e.line[i]? = some c) :
    Function.update s.buf e.line.length b i = c := by
  obtain ⟨hi, -⟩ := List.getElem?_eq_some_iff.mp hc
  rw [Function.update_of_ne (by omega)]
  exact h.bytes i c hc

/-- Enter passes the line on and starts a new one. -/
theorem enter_typed (h : Typed s e) (taskCreate : UInt64) :
    ∃ s', notCtrlC s 10 taskCreate = some s' ∧ Typed s' ⟨[], e.entered ++ [e.line]⟩ := by
  have hshort := h.short
  have hstring : stringAt (Function.update s.buf e.line.length 0) 0 8192 = e.line := by
    refine stringAt_eq (fun i c hc => ?_) h.noNul ?_ (by omega)
    · rw [Nat.zero_add]
      exact h.update 0 hc
    · rw [Nat.zero_add, Function.update_self]
  unfold notCtrlC
  rw [if_pos rfl, store_eq h, Option.map_some]
  refine ⟨_, rfl, rfl, by simp, by simp, Nat.zero_le _, ?_⟩
  dsimp only
  rw [hstring, h.started]

theorem backspace_typed (h : Typed s e) :
    ∃ s', notNewline s 8 = some s' ∧ Typed s' { e with line := e.line.dropLast } := by
  have hlen := h.len
  have hshort := h.short
  have hbytes : ∀ i c, e.line.dropLast[i]? = some c → s.buf i = c := by
    intro i c hc
    rw [List.getElem?_dropLast] at hc
    split at hc
    · exact h.bytes i c hc
    · cases hc
  have hnul : ∀ c ∈ e.line.dropLast, c ≠ 0 := fun c hc => h.noNul c (List.dropLast_subset _ hc)
  unfold notNewline
  rw [if_pos rfl]
  by_cases h0 : s.inputLen = 0
  · rw [if_pos h0]
    refine ⟨s, rfl, ?_, hbytes, hnul, ?_, h.started⟩
    · rw [List.length_dropLast]
      omega
    · rw [List.length_dropLast]
      omega
  · rw [if_neg h0]
    refine ⟨_, rfl, ?_, hbytes, hnul, ?_, h.started⟩
    · rw [List.length_dropLast, ← hlen]
    · rw [List.length_dropLast]
      omega

/-- Any other character goes to the end of the line. -/
theorem character_typed (h : Typed s e) {al : UInt8} (h0 : al ≠ 0)
    (hroom : e.line.length + 1 ≤ 8191) :
    ∃ s', notBackspace s al = some s' ∧
      Typed s' { e with line := e.line ++ [if al = 0x01 then 32 else al] } := by
  have hb : (if al = 0x01 then 32 else al) ≠ 0 := by
    split
    · decide
    · exact h0
  unfold notBackspace
  generalize (if al = 0x01 then 32 else al) = b at hb ⊢
  dsimp only
  rw [store_eq h, Option.map_some]
  refine ⟨_, rfl, ?_, fun i c hc => ?_, fun c hc => ?_, ?_, h.started⟩
  · rw [List.length_append, List.length_singleton, ← h.len]
  · by_cases hi : i < e.line.length
    · rw [List.getElem?_append_left hi] at hc
      exact h.update b hc
    · rw [List.getElem?_append_right (by omega)] at hc
      obtain ⟨hlast, hbc⟩ := List.getElem?_eq_some_iff.mp hc
      rw [List.length_singleton] at hlast
      have hi' : i = e.line.length := by omega
      rw [List.getElem_singleton] at hbc
      rw [hi', ← hbc]
      exact Function.update_self _ _ _
  · rcases List.mem_append.mp hc with hc | hc
    · exact h.noNul c hc
    · rw [List.mem_singleton.mp hc]
      exact hb
  · rw [List.length_append, List.length_singleton]
    exact hroom

/-- One turn, for any character but Ctrl+C. -/
theorem turn_typed (h : Typed s e) (u : Turn) (hblank : u.al ≠ 32) (hctrl : u.al ≠ 0x03)
    (hfits : (edit e u.al).line.length ≤ 8191) :
    ∃ s', turn s u = some s' ∧ Typed s' (edit e u.al) := by
  unfold turn
  by_cases h0 : u.al = 0
  · rw [if_pos h0, edit, if_pos h0]
    exact ⟨s, rfl, h⟩
  rw [if_neg h0, if_neg hblank, if_neg (fun hc => hctrl hc.1)]
  unfold edit at hfits ⊢
  rw [if_neg h0] at hfits ⊢
  by_cases henter : u.al = 10
  · rw [if_pos henter, henter]
    exact enter_typed h u.taskCreate
  rw [if_neg henter] at hfits ⊢
  rw [notCtrlC, if_neg henter]
  by_cases hback : u.al = 8
  · rw [if_pos hback, hback]
    exact backspace_typed h
  rw [if_neg hback, if_neg hctrl] at hfits ⊢
  rw [notNewline, if_neg hback]
  rw [List.length_append, List.length_singleton] at hfits
  exact character_typed h h0 hfits

/-! ## Runs -/

theorem run_typed (h : Typed s e) {turns : List Turn} (hblank : ∀ u ∈ turns, u.al ≠ 32)
    (hctrl : ∀ u ∈ turns, u.al ≠ 0x03) (hfits : Fits e (turns.map Turn.al)) :
    ∃ s', turns.foldlM turn s = some s' ∧ Typed s' ((turns.map Turn.al).foldl edit e) := by
  induction turns generalizing s e with
  | nil => exact ⟨s, rfl, h⟩
  | cons u turns ih =>
    obtain ⟨hfirst, hrest⟩ := hfits
    obtain ⟨s₁, hs₁, h₁⟩ := turn_typed h u (hblank u List.mem_cons_self)
      (hctrl u List.mem_cons_self) hfirst
    obtain ⟨s', hs', h'⟩ := ih h₁ (fun v hv => hblank v (List.mem_cons_of_mem _ hv))
      (fun v hv => hctrl v (List.mem_cons_of_mem _ hv)) hrest
    refine ⟨s', ?_, h'⟩
    rw [List.foldlM_cons, hs₁]
    exact hs'

theorem al_ne_blank {u : Turn} (h : Keyboard.Returned u.getchar) : u.al ≠ 32 := by
  unfold Turn.al
  rcases h.zero_or_keyChar with h0 | ⟨c, hc, hr⟩
  · rw [h0]
    decide
  · rw [hr, UInt8.ofNat_toNat]
    exact hc.2.2

/-- Without Ctrl+C, the strings that are passed to `SYSCALL_TASK_CREATE` are the
lines that were typed, whatever programs were started before. -/
theorem line_editing (buf : Nat → UInt8) {turns : List Turn}
    (hret : ∀ u ∈ turns, Keyboard.Returned u.getchar)
    (hfits : Fits Line.empty (turns.map Turn.al)) (hctrl : ∀ u ∈ turns, u.al ≠ 0x03) :
    ∃ s, turns.foldlM turn (start buf) = some s ∧
      s.started = ((turns.map Turn.al).foldl edit Line.empty).entered := by
  have hstart : Typed (start buf) Line.empty :=
    ⟨rfl, (fun i c hc => by cases hc), by simp [Line.empty], by simp [Line.empty], rfl⟩
  obtain ⟨s, hs, htyped⟩ :=
    run_typed hstart (fun u hu => al_ne_blank (hret u hu)) hctrl hfits
  exact ⟨s, hs, htyped.started⟩

/-- The characters `c`, with the results 0. -/
def typing (cs : List Nat) : List Turn := cs.map fun c => ⟨c, 0, 0⟩

/-- The keys `a`, `b`, Backspace, Space, `c` and Enter. -/
def typedKeys : List Nat := [0x61, 0x62, 0x08, 0x01, 0x63, 0x0A]

theorem returned_of_key {r : Nat} (codes : List UInt8)
    (h : r ∈ (Keyboard.run Keyboard.start
      (codes.map Keyboard.Event.scancode ++ [Keyboard.Event.getchar])).2) :
    Keyboard.Returned r :=
  ⟨_, h⟩

theorem line_editing_typedKeys :
    ∃ s, (typing typedKeys).foldlM turn (start fun _ => 0) = some s ∧
      s.started = [[0x61, 0x20, 0x63]] := by
  have hret : ∀ u ∈ typing typedKeys, Keyboard.Returned u.getchar := by
    intro u hu
    obtain ⟨c, hc, rfl⟩ := List.mem_map.mp hu
    simp only [typedKeys, List.mem_cons, List.not_mem_nil, or_false] at hc
    rcases hc with rfl | rfl | rfl | rfl | rfl | rfl
    · exact returned_of_key [0x1E] (by decide)
    · exact returned_of_key [0x30] (by decide)
    · exact returned_of_key [0x0E] (by decide)
    · exact returned_of_key [0x39] (by decide)
    · exact returned_of_key [0x2E] (by decide)
    · exact returned_of_key [0x1C] (by decide)
  obtain ⟨s, hs, hstarted⟩ := line_editing (fun _ => 0) hret (by decide) (by decide)
  exact ⟨s, hs, hstarted.trans (by decide)⟩

theorem ctrl_c_in_line :
    ¬ ∀ (buf : Nat → UInt8) (turns : List Turn),
      (∀ u ∈ turns, Keyboard.Returned u.getchar) → Fits Line.empty (turns.map Turn.al) →
        ∃ s, turns.foldlM turn (start buf) = some s ∧
          s.started = ((turns.map Turn.al).foldl edit Line.empty).entered := by
  intro h
  have hret : ∀ u ∈ typing [0x61, 0x03, 0x0A], Keyboard.Returned u.getchar := by
    intro u hu
    obtain ⟨c, hc, rfl⟩ := List.mem_map.mp hu
    simp only [List.mem_cons, List.not_mem_nil, or_false] at hc
    rcases hc with rfl | rfl | rfl
    · exact returned_of_key [0x1E] (by decide)
    · exact returned_of_key [0x1D, 0x2E] (by decide)
    · exact returned_of_key [0x1C] (by decide)
  obtain ⟨s, hs, hstarted⟩ := h (fun _ => 0) _ hret (by decide)
  have hrun : ((typing [0x61, 0x03, 0x0A]).foldlM turn (start fun _ => 0)).map Shell.started =
      some [[0x61, 0x03]] := by
    decide +kernel
  rw [hs, Option.map_some, hstarted] at hrun
  exact absurd hrun (by decide)

end KernelC.User
