import KernelC.Keyboard.Basic
import KernelC.Lib.CircularBuffer

/-!
# The key queue

`Pending k q`: the characters `q` wait in the buffer. A key either leaves the
queue alone, or it puts one character at its end when fewer than 255 wait
(`keyboardHandler_queue`). That character is never 0 and never 0xFF, so the two
markers for an empty queue, -1 of `kbd_getchar` and 0 of the system call, are no
characters (`getchar_queue`).

Result: `key_queue`, for every interleaving of scancodes and reads.
-/

namespace KernelC.Keyboard

variable {k : Kbd} {q : List UInt8}

/-! ## The characters that are pushed -/

/-- Neither 0 nor negative as a `char`, and no blank: Space gives
`INTERNAL_SPACE`. -/
def KeyChar (c : UInt8) : Prop := c ≠ 0 ∧ c < 0x80 ∧ c ≠ 0x20

instance (c : UInt8) : Decidable (KeyChar c) := inferInstanceAs (Decidable (_ ∧ _))

theorem entry_mem {table : List (UInt8 × Char)} {scancode : UInt8} :
    entry table scancode = 0 ∨ ∃ p ∈ table, entry table scancode = p.2.toUInt8 := by
  unfold entry
  induction table with
  | nil => exact .inl rfl
  | cons p table ih =>
    rw [List.lookup_cons]
    cases scancode == p.1 with
    | true => exact .inr ⟨p, List.mem_cons_self, rfl⟩
    | false => exact ih.imp_right fun ⟨r, hr, he⟩ => ⟨r, List.mem_cons_of_mem _ hr, he⟩

theorem entry_keyChar {table : List (UInt8 × Char)} (h : ∀ p ∈ table, KeyChar p.2.toUInt8)
    {scancode : UInt8} (h0 : entry table scancode ≠ 0) : KeyChar (entry table scancode) := by
  obtain ⟨p, hp, he⟩ := entry_mem.resolve_left h0
  rw [he]
  exact h p hp

theorem scancodeToAscii_keyChar : ∀ p ∈ scancodeToAscii, KeyChar p.2.toUInt8 := by decide

theorem scancodeToAsciiShifted_keyChar : ∀ p ∈ scancodeToAsciiShifted, KeyChar p.2.toUInt8 := by decide

theorem myToupper_keyChar {c : UInt8} (h : KeyChar c) : KeyChar (myToupper c) := by
  unfold myToupper
  split
  · next hc =>
    unfold KeyChar
    have h1 := UInt8.le_iff_toNat_le.mp hc.1
    have h2 := UInt8.le_iff_toNat_le.mp hc.2
    have hsub : (c - 32).toNat = c.toNat - 32 :=
      UInt8.toNat_sub_of_le c 32 (UInt8.le_trans (by decide) hc.1)
    refine ⟨fun h0 => ?_, UInt8.lt_iff_toNat_lt.mpr ?_, fun h0 => ?_⟩
    · rw [h0] at hsub
      simp at hsub h1
      omega
    · rw [hsub]
      simp at h2 ⊢
      omega
    · rw [h0] at hsub
      simp at hsub h1
      omega
  · exact h

theorem getAsciiChar_keyChar {key : UInt8} (h0 : getAsciiChar k key ≠ 0) :
    KeyChar (getAsciiChar k key) := by
  unfold getAsciiChar at h0 ⊢
  dsimp only at h0 ⊢
  split at h0
  · split at h0
    · have hbase : entry scancodeToAscii key ≠ 0 := fun he => h0 (by rw [he]; decide)
      rw [if_pos ‹_›, if_pos ‹_›]
      exact myToupper_keyChar (entry_keyChar scancodeToAscii_keyChar hbase)
    · rw [if_pos ‹_›, if_neg ‹_›]
      exact entry_keyChar scancodeToAscii_keyChar h0
  · split at h0
    · rw [if_neg ‹_›, if_pos ‹_›]
      exact entry_keyChar scancodeToAsciiShifted_keyChar h0
    · rw [if_neg ‹_›, if_neg ‹_›]
      exact entry_keyChar scancodeToAscii_keyChar h0

/-! ## The queue -/

structure Pending (k : Kbd) (q : List UInt8) : Prop where
  buffered : Buffered 256 k.kbdBuf k.kbdHead k.kbdTail q
  keyChar : ∀ c ∈ q, KeyChar c

/-- Either the state of the queue is as it was, or one more character waits. -/
theorem kbdBufferPush_queue (h : Pending k q) (c : UInt8) :
    (q.length = 255 ∧ kbdBufferPush k c = k) ∨
    (q.length < 255 ∧ (kbdBufferPush k c).accepted = k.accepted ++ [c] ∧
      (KeyChar c → Pending (kbdBufferPush k c) (q ++ [c]))) := by
  have hlen := h.buffered.lenLt
  have hfull := h.buffered.full_iff
  unfold kbdBufferPush
  dsimp only
  by_cases hnext : (k.kbdHead + 1) % kbdBufSize = k.kbdTail
  · rw [if_neg (not_not.mpr hnext)]
    have := hfull.mp hnext
    exact .inl ⟨by omega, rfl⟩
  · rw [if_pos hnext]
    have hroom : q.length + 1 ≠ 256 := fun he => hnext (hfull.mpr he)
    refine .inr ⟨by omega, rfl, fun hc => ⟨h.buffered.push hnext c, fun b hb => ?_⟩⟩
    rcases List.mem_append.mp hb with hb | hb
    · exact h.keyChar b hb
    · rw [List.mem_singleton.mp hb]
      exact hc

/-- What a key does to the queue: at most one character comes in. -/
theorem keyboardHandler_queue (h : Pending k q) (code : UInt8) :
    ∃ new : List UInt8, Pending (keyboardHandler k code) (q ++ new) ∧
      (keyboardHandler k code).accepted = k.accepted ++ new := by
  -- nothing is pushed
  have hkeep : ∀ k' : Kbd, k'.kbdBuf = k.kbdBuf → k'.kbdHead = k.kbdHead →
      k'.kbdTail = k.kbdTail → k'.accepted = k.accepted →
      ∃ new : List UInt8, Pending k' (q ++ new) ∧ k'.accepted = k.accepted ++ new := by
    intro k' hbuf hhead htail hacc
    refine ⟨[], ⟨?_, by simpa using h.keyChar⟩, by simpa using hacc⟩
    rw [hbuf, hhead, htail, List.append_nil]
    exact h.buffered
  have hpush : ∀ c, KeyChar c → ∃ new : List UInt8, Pending (kbdBufferPush k c) (q ++ new) ∧
      (kbdBufferPush k c).accepted = k.accepted ++ new := by
    intro c hc
    rcases kbdBufferPush_queue h c with ⟨-, hsame⟩ | ⟨-, hacc, hpend⟩
    · rw [hsame]
      exact hkeep k rfl rfl rfl rfl
    · exact ⟨[c], hpend hc, hacc⟩
  unfold keyboardHandler
  dsimp only
  split
  · exact hkeep _ rfl rfl rfl rfl
  split
  · exact hpush 0x03 (by decide)
  split
  · exact hkeep _ rfl rfl rfl rfl
  split
  · exact hkeep _ rfl rfl rfl rfl
  split
  · split
    · exact hpush _ (getAsciiChar_keyChar ‹_›)
    · exact hkeep k rfl rfl rfl rfl
  · exact hkeep k rfl rfl rfl rfl

theorem charToInt_of_keyChar {c : UInt8} (h : KeyChar c) : charToInt c = c.toNat := by
  unfold charToInt
  rw [if_pos h.2.1]

/-- A read takes the oldest character; it returns 0 when there is none. -/
theorem getchar_queue (h : Pending k q) :
    (q = [] ∧ syscallGetchar k = (k, 0)) ∨
    ∃ c rest, q = c :: rest ∧ Pending (syscallGetchar k).1 rest ∧
      (syscallGetchar k).1.accepted = k.accepted ∧ (syscallGetchar k).2 = c.toNat ∧
      c.toNat ≠ 0 := by
  unfold syscallGetchar kbdGetchar
  cases q with
  | nil =>
    rw [if_pos (h.buffered.empty_iff.mpr rfl)]
    exact .inl ⟨rfl, rfl⟩
  | cons c rest =>
    have hne : k.kbdHead ≠ k.kbdTail := fun he => by
      have := h.buffered.empty_iff.mp he
      simp at this
    obtain ⟨hslot, hrest⟩ := h.buffered.pop
    have hc := h.keyChar c List.mem_cons_self
    have hint := charToInt_of_keyChar hc
    have hlt := c.toNat_lt
    refine .inr ⟨c, rest, rfl, ?_⟩
    rw [if_neg hne]
    refine ⟨⟨hrest, fun b hb => h.keyChar b (List.mem_cons_of_mem _ hb)⟩, rfl, ?_, fun h0 => ?_⟩
    · dsimp only
      rw [hslot, hint, if_neg (by omega)]
      omega
    · exact hc.1 (UInt8.toNat_inj.mp h0)

/-! ## Runs -/

inductive Event
  | scancode (code : UInt8)
  | getchar

/-- Returns the results of the reads too. -/
def run (k : Kbd) : List Event → Kbd × List Nat
  | [] => (k, [])
  | .scancode code :: es => run (keyboardHandler k code) es
  | .getchar :: es =>
    let r := syscallGetchar k
    let rest := run r.1 es
    (rest.1, r.2 :: rest.2)

/-- The results that are characters, and then what still waits, are what waited
before and what was accepted since. -/
theorem run_queue (h : Pending k q) (es : List Event) :
    ∃ new rest : List UInt8, Pending (run k es).1 rest ∧ (run k es).1.accepted = k.accepted ++ new ∧
      (∀ c ∈ q ++ new, KeyChar c) ∧
      (q ++ new).map UInt8.toNat = (run k es).2.filter (· ≠ 0) ++ rest.map UInt8.toNat := by
  induction es generalizing k q with
  | nil => exact ⟨[], q, h, by simp [run], by simpa using h.keyChar, by simp [run]⟩
  | cons e es ih =>
    cases e with
    | scancode code =>
      obtain ⟨new₁, hpend, hacc₁⟩ := keyboardHandler_queue h code
      obtain ⟨new₂, rest, hrest, hacc₂, hkeys, hout⟩ := ih hpend
      refine ⟨new₁ ++ new₂, rest, hrest, ?_, ?_, ?_⟩
      · rw [run, hacc₂, hacc₁, List.append_assoc]
      · rw [← List.append_assoc]
        exact hkeys
      · rw [run, ← List.append_assoc]
        exact hout
    | getchar =>
      rcases getchar_queue h with ⟨rfl, hget⟩ | ⟨c, q', rfl, hpend, hacc₁, hres, hne⟩
      · obtain ⟨new, rest, hrest, hacc, hkeys, hout⟩ := ih h
        refine ⟨new, rest, ?_⟩
        rw [run, hget]
        exact ⟨hrest, hacc, hkeys, by simpa using hout⟩
      · obtain ⟨new, rest, hrest, hacc₂, hkeys, hout⟩ := ih hpend
        refine ⟨new, rest, hrest, ?_, fun b hb => ?_, ?_⟩
        · rw [run, hacc₂, hacc₁]
        · rcases List.mem_cons.mp hb with rfl | hb
          · exact h.keyChar b List.mem_cons_self
          · exact hkeys b hb
        · rw [run, hres, List.filter_cons_of_pos (by simpa using hne), List.cons_append,
            List.cons_append, List.map_cons, ← hout]

theorem start_pending : Pending start [] :=
  ⟨Buffered.nil (by decide) _, by simp⟩

/-- A value that `SYSCALL_GETCHAR` returns at some point. -/
def Returned (r : Nat) : Prop := ∃ es, r ∈ (run start es).2

theorem Returned.zero_or_keyChar {r : Nat} (h : Returned r) :
    r = 0 ∨ ∃ c, KeyChar c ∧ r = c.toNat := by
  obtain ⟨es, hr⟩ := h
  obtain ⟨new, waiting, -, -, hkeys, hout⟩ := run_queue start_pending es
  by_cases h0 : r = 0
  · exact .inl h0
  · have hmem : r ∈ ([] ++ new).map UInt8.toNat := by
      rw [hout]
      exact List.mem_append_left _ (List.mem_filter.mpr ⟨hr, by simpa using h0⟩)
    obtain ⟨c, hc, rfl⟩ := List.mem_map.mp hmem
    exact .inr ⟨c, hkeys c hc, rfl⟩

/-- After any scancodes and reads in any order: both indices are in the buffer;
the characters that were accepted are the non-zero results followed by the ones
that still wait. The next character is dropped exactly when 255 wait, the next
read returns 0 exactly when none waits, and none that waits is 0 or -1. -/
theorem key_queue (es : List Event) :
    let k := (run start es).1
    k.kbdHead < 256 ∧ k.kbdTail < 256 ∧
    ∃ waiting : List UInt8,
      k.accepted.map UInt8.toNat = (run start es).2.filter (· ≠ 0) ++ waiting.map UInt8.toNat ∧
      waiting.length ≤ 255 ∧
      (∀ c, (kbdBufferPush k c).accepted =
        if waiting.length = 255 then k.accepted else k.accepted ++ [c]) ∧
      ((syscallGetchar k).2 = 0 ↔ waiting = []) ∧
      ∀ c ∈ waiting, c ≠ 0 ∧ charToInt c ≠ -1 := by
  obtain ⟨new, waiting, hpend, hacc, -, hout⟩ := run_queue start_pending es
  have hlen := hpend.buffered.lenLt
  refine ⟨hpend.buffered.headLt, hpend.buffered.tailLt, waiting, ?_, by omega, fun c => ?_, ?_,
    fun c hc => ?_⟩
  · rw [hacc]
    exact hout
  · rcases kbdBufferPush_queue hpend c with ⟨hfull, hsame⟩ | ⟨hroom, hmore, -⟩
    · rw [if_pos hfull, hsame]
    · rw [if_neg (by omega), hmore]
  · rcases getchar_queue hpend with ⟨hnil, hget⟩ | ⟨c, rest, hcons, -, -, hres, hne⟩
    · rw [hget, hnil]
      exact iff_of_true rfl rfl
    · rw [hres, hcons]
      exact iff_of_false hne (List.cons_ne_nil _ _)
  · have hkey := hpend.keyChar c hc
    refine ⟨hkey.1, ?_⟩
    rw [charToInt_of_keyChar hkey]
    omega

end KernelC.Keyboard
