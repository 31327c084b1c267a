import KernelC.Keyboard.Modifiers
import KernelC.Keyboard.Queue

/-!
# Typing

The codes of a text (`strokes`): each key down and up again, with the left Shift key
around those that need it. Whatever reads come between the codes, the characters that are
read and those that still wait are the text, if no code finds the queue full
(`typed_text_read`).

What a code puts into the queue depends on the flags alone (`keyboardHandler_accepted`),
and a read changes no flag; so a run accepts what its codes produce one after another
(`run_accepted`), and the codes of a text produce the text (`produced_strokes`).
-/

namespace KernelC.Keyboard

/-! ## What codes produce -/

structure Flags where
  shiftDown : Bool
  capsLock : Bool
  ctrlDown : Bool
deriving DecidableEq

def Kbd.flags (k : Kbd) : Flags := ⟨k.shiftDown, k.capsLock, k.ctrlDown⟩

/-- The keyboard with these flags, and nothing in its queue. -/
def Flags.idle (f : Flags) : Kbd :=
  { start with shiftDown := f.shiftDown, capsLock := f.capsLock, ctrlDown := f.ctrlDown }

/-- The characters of the codes, by the handler on an empty queue. -/
def produced : Flags → List UInt8 → List UInt8
  | _, [] => []
  | f, code :: codes =>
    (keyboardHandler f.idle code).accepted ++ produced (keyboardHandler f.idle code).flags codes

/-- The flags after the codes. -/
def flagsAfter (f : Flags) (codes : List UInt8) : Flags :=
  codes.foldl (fun f code => (keyboardHandler f.idle code).flags) f

theorem produced_append (f : Flags) (codes codes' : List UInt8) :
    produced f (codes ++ codes') = produced f codes ++ produced (flagsAfter f codes) codes' := by
  induction codes generalizing f with
  | nil => rfl
  | cons code codes ih =>
    rw [List.cons_append, produced, produced, ih, List.append_assoc]
    rfl

theorem flagsAfter_append (f : Flags) (codes codes' : List UInt8) :
    flagsAfter f (codes ++ codes') = flagsAfter (flagsAfter f codes) codes' :=
  List.foldl_append

/-! ## The handler -/

/-- There is room for a character. -/
def Kbd.Room (k : Kbd) : Prop := (k.kbdHead + 1) % kbdBufSize ≠ k.kbdTail

instance (k : Kbd) : Decidable k.Room := inferInstanceAs (Decidable (_ ≠ _))

variable {k k' : Kbd}

theorem kbdBufferPush_accepted (h : k.Room) (c : UInt8) :
    (kbdBufferPush k c).accepted = k.accepted ++ [c] := by
  unfold kbdBufferPush
  exact congrArg Kbd.accepted (if_pos h)

theorem keyboardHandler_congr (h : k.flags = k'.flags) (code : UInt8) :
    (keyboardHandler k code).flags = (keyboardHandler k' code).flags := by
  obtain ⟨hshift, hcaps, hctrl⟩ := Flags.mk.inj h
  obtain ⟨hctrl₁, hshift₁, hcaps₁⟩ := keyboardHandler_flags k code
  obtain ⟨hctrl₂, hshift₂, hcaps₂⟩ := keyboardHandler_flags k' code
  unfold Kbd.flags
  rw [hctrl₁, hshift₁, hcaps₁, hctrl₂, hshift₂, hcaps₂, hshift, hcaps, hctrl]

/-- What a code puts into a queue with room. -/
theorem keyboardHandler_accepted (h : k.Room) (code : UInt8) :
    (keyboardHandler k code).accepted =
      k.accepted ++ (keyboardHandler k.flags.idle code).accepted := by
  have hidle : k.flags.idle.Room := show (0 + 1) % kbdBufSize ≠ 0 by decide
  have hchar : getAsciiChar k.flags.idle (keyOf code) = getAsciiChar k (keyOf code) := rfl
  have hctrl : k.flags.idle.ctrlDown = k.ctrlDown := rfl
  have hnil : k.flags.idle.accepted = [] := rfl
  unfold keyboardHandler
  dsimp only
  rw [hchar, hctrl]
  split_ifs <;> simp [kbdBufferPush_accepted, h, hidle, hnil]

/-! ## Runs with reads in between -/

/-- The codes among the events. -/
def codesOf : List Event → List UInt8
  | [] => []
  | .scancode code :: es => code :: codesOf es
  | .getchar :: es => codesOf es

/-- No code finds the queue full. -/
def NeverFull : Kbd → List Event → Prop
  | _, [] => True
  | k, .scancode code :: es => k.Room ∧ NeverFull (keyboardHandler k code) es
  | k, .getchar :: es => NeverFull (syscallGetchar k).1 es

instance instDecidableNeverFull : (k : Kbd) → (es : List Event) → Decidable (NeverFull k es)
  | _, [] => inferInstanceAs (Decidable True)
  | k, .scancode code :: es =>
    have := instDecidableNeverFull (keyboardHandler k code) es
    inferInstanceAs (Decidable (_ ∧ _))
  | k, .getchar :: es => instDecidableNeverFull (syscallGetchar k).1 es

theorem syscallGetchar_flags (k : Kbd) :
    (syscallGetchar k).1.flags = k.flags ∧ (syscallGetchar k).1.accepted = k.accepted := by
  unfold syscallGetchar kbdGetchar
  split <;> exact ⟨rfl, rfl⟩

/-- The reads make no difference. -/
theorem run_accepted {es : List Event} (h : NeverFull k es) :
    (run k es).1.accepted = k.accepted ++ produced k.flags (codesOf es) ∧
      (run k es).1.flags = flagsAfter k.flags (codesOf es) := by
  induction es generalizing k with
  | nil => exact ⟨(List.append_nil _).symm, rfl⟩
  | cons e es ih =>
    cases e with
    | scancode code =>
      obtain ⟨hroom, hrest⟩ := h
      obtain ⟨hacc, hflags⟩ := ih hrest
      have hidle : k.flags = k.flags.idle.flags := rfl
      have hsame := keyboardHandler_congr hidle code
      rw [run, hacc, hflags, keyboardHandler_accepted hroom, hsame]
      exact ⟨List.append_assoc _ _ _, rfl⟩
    | getchar =>
      obtain ⟨hacc, hflags⟩ := ih (k := (syscallGetchar k).1) h
      obtain ⟨hf, ha⟩ := syscallGetchar_flags k
      rw [hf, ha] at hacc
      rw [hf] at hflags
      exact ⟨hacc, hflags⟩

/-! ## A text -/

/-- A character as it goes through the queue. -/
def queued (c : UInt8) : UInt8 := if c = 32 then internalSpace.toUInt8 else c

/-- The key of a character, and whether it needs Shift. -/
def keyFor (c : UInt8) : Option (UInt8 × Bool) :=
  match scancodeToAscii.find? fun p => p.2.toUInt8 == queued c with
  | some p => some (p.1, false)
  | none => (scancodeToAsciiShifted.find? fun p => p.2.toUInt8 == queued c).map fun p => (p.1, true)

/-- Backspace, Tab, Enter, and the printable characters of ASCII. -/
def Typeable (c : UInt8) : Prop := c = 8 ∨ c = 9 ∨ c = 10 ∨ 32 ≤ c ∧ c ≤ 126

instance (c : UInt8) : Decidable (Typeable c) := inferInstanceAs (Decidable (_ ∨ _))

/-- The key of `c` down and up, with the left Shift key around it where it needs it. -/
def stroke (c : UInt8) : List UInt8 :=
  match keyFor c with
  | none => []
  | some (key, false) => [key, key ||| 0x80]
  | some (key, true) => [keyLshift, key, key ||| 0x80, keyLshift ||| 0x80]

def strokes (text : List UInt8) : List UInt8 := text.flatMap stroke

/-- No modifier is down or locked. -/
def plain : Flags := ⟨false, false, false⟩

theorem stroke_spec {c : UInt8} (h : Typeable c) :
    produced plain (stroke c) = [queued c] ∧ flagsAfter plain (stroke c) = plain := by
  have hall : ∀ n < 256, Typeable (UInt8.ofNat n) →
      produced plain (stroke (UInt8.ofNat n)) = [queued (UInt8.ofNat n)] ∧
        flagsAfter plain (stroke (UInt8.ofNat n)) = plain := by
    decide +kernel
  have hc := hall c.toNat c.toNat_lt
  rw [UInt8.ofNat_toNat] at hc
  exact hc h

theorem produced_strokes {text : List UInt8} (h : ∀ c ∈ text, Typeable c) :
    produced plain (strokes text) = text.map queued ∧
      flagsAfter plain (strokes text) = plain := by
  induction text with
  | nil => exact ⟨rfl, rfl⟩
  | cons c text ih =>
    obtain ⟨hchar, hflags⟩ := stroke_spec (h c List.mem_cons_self)
    obtain ⟨hrest, hplain⟩ := ih fun d hd => h d (List.mem_cons_of_mem _ hd)
    have hsplit : strokes (c :: text) = stroke c ++ strokes text := List.flatMap_cons
    rw [hsplit, produced_append, flagsAfter_append, hchar, hflags, hrest, hplain]
    exact ⟨rfl, rfl⟩

/-- A text of characters that keys have, with reads at any time, and no code while 255
characters wait: the reads that return a character return those of the text, in order and none
twice, and what is missing at the end still waits. A blank is read as `INTERNAL_SPACE`, the
character of its key. -/
theorem typed_text_read {text : List UInt8} (htext : ∀ c ∈ text, Typeable c) {es : List Event}
    (hcodes : codesOf es = strokes text) (hroom : NeverFull start es) :
    ∃ waiting : List UInt8, Pending (run start es).1 waiting ∧
      (text.map queued).map UInt8.toNat =
        (run start es).2.filter (· ≠ 0) ++ waiting.map UInt8.toNat := by
  obtain ⟨new, waiting, hpend, hacc, -, hout⟩ := run_queue start_pending es
  have hnew : (run start es).1.accepted = text.map queued := by
    rw [(run_accepted hroom).1, hcodes]
    exact (produced_strokes htext).1
  refine ⟨waiting, hpend, ?_⟩
  rw [← hnew, hacc]
  exact hout

/-- `Ab c!`, read twice while it is typed. -/
def typedEvents : List Event :=
  (strokes [0x41, 0x62]).map .scancode ++ [.getchar] ++
    (strokes [0x20, 0x63, 0x21]).map .scancode ++ [.getchar]

theorem typed_text_read_events : ∃ waiting : List UInt8, Pending (run start typedEvents).1 waiting ∧
    [0x41, 0x62, 0x01, 0x63, 0x21] =
      (run start typedEvents).2.filter (· ≠ 0) ++ waiting.map UInt8.toNat := by
  have htext : ∀ c ∈ ([0x41, 0x62, 0x20, 0x63, 0x21] : List UInt8), Typeable c := by decide +kernel
  exact typed_text_read htext (by decide +kernel) (by decide +kernel)

end KernelC.Keyboard
