import LizardOs.Tty.ReadLine

/-!
# The input rings

The two rings that interrupts fill: completed lines in `tty.c`, read by `sys_read(0)`, and raw scancodes in
`keyboard.c`, read by `sys_key_get`.  Calls of their functions come one after another, as the syscall gate keeps
interrupts off.

Each ring is a queue that discards its oldest element when a push finds it full, also after its counters have wrapped
around (`inputRings_fifo`).  `isr_keyboard` and the system calls work on both, and answer as a line editor with two such
queues does (`input_refines`).
-/

namespace LizardOs.Tty

open LizardOs.Lib

def KBD_RING_SIZE : UInt32 := 256

/-- The ring of raw scancodes, its write and its read index, and who owns the keyboard. -/
structure Keyboard where
  kbdRing : ℕ → UInt8
  kbdHead : UInt32
  kbdTail : UInt32
  kbdRaw : ℤ

namespace Keyboard

/-- `keyboard_set_raw`. -/
def keyboardSetRaw (k : Keyboard) (on : ℤ) : Keyboard :=
  let k := { k with kbdRaw := if on ≠ 0 then 1 else 0 }
  if on = 0 then { k with kbdTail := k.kbdHead } else k

/-- `keyboard_pop_scancode`. -/
def keyboardPopScancode (k : Keyboard) : ℤ × Keyboard :=
  if k.kbdTail = k.kbdHead then (-1, k)
  else ((k.kbdRing (k.kbdTail % KBD_RING_SIZE).toNat).toNat, { k with kbdTail := k.kbdTail + 1 })

/-- `kbd_ring_push`. -/
def kbdRingPush (k : Keyboard) (sc : UInt8) : Keyboard :=
  let next := k.kbdHead + 1
  let k := if KBD_RING_SIZE < next - k.kbdTail then { k with kbdTail := k.kbdTail + 1 } else k
  { k with kbdRing := Function.update k.kbdRing (k.kbdHead % KBD_RING_SIZE).toNat sc, kbdHead := next }

/-! ### The ring of scancodes as a queue -/

def ring (k : Keyboard) : RingBuffer UInt8 := ⟨k.kbdRing, k.kbdHead, k.kbdTail⟩

/-- The scancodes that have not been read, oldest first. -/
def unread (k : Keyboard) : List UInt8 := k.ring.contents 256

variable {k : Keyboard}

theorem cell_toNat (x : UInt32) : (x % KBD_RING_SIZE).toNat = x.toNat % 256 := by
  rw [UInt32.toNat_mod]
  rfl

/-- The ring is full when one more element would be more than its size. -/
theorem ring_kbdRingPush (hcount : k.ring.count ≤ 256) (sc : UInt8) : (k.kbdRingPush sc).ring = k.ring.push 256 sc := by
  have hput : (k.ring.put 256 sc).count = k.ring.count + 1 := k.ring.count_put (by omega) sc
  have hnext : (k.kbdHead + 1 - k.kbdTail).toNat = k.ring.count + 1 := hput
  have hiff : KBD_RING_SIZE < k.kbdHead + 1 - k.kbdTail ↔ ¬k.ring.count < 256 := by
    rw [UInt32.lt_iff_toNat_lt, hnext]
    show 256 < k.ring.count + 1 ↔ _
    omega
  rw [RingBuffer.push, kbdRingPush]
  by_cases hfull : KBD_RING_SIZE < k.kbdHead + 1 - k.kbdTail
  · rw [if_neg (hiff.mp hfull)]
    simp only [if_pos hfull]
    rw [ring, cell_toNat]
    rfl
  · rw [if_pos (not_not.mp (hfull ∘ hiff.mpr))]
    simp only [if_neg hfull]
    rw [ring, cell_toNat]
    rfl

theorem kbdRaw_kbdRingPush (k : Keyboard) (sc : UInt8) : (k.kbdRingPush sc).kbdRaw = k.kbdRaw := by
  rw [kbdRingPush]
  simp only []
  split <;> rfl

end Keyboard

/-! ### What a ring is to its callers -/

/-- The ring of completed lines holds a queue. -/
structure Stdin.Holds (t : Stdin) (q : List UInt8) : Prop where
  unread : t.unread = q
  count : (t.stdinHead - t.stdinTail).toNat = q.length
  bound : q.length ≤ 1024
  empty : t.ttyStdinAvailable = false ↔ q = []

/-- The ring of scancodes holds a queue. -/
structure Keyboard.Holds (k : Keyboard) (q : List UInt8) : Prop where
  unread : k.unread = q
  count : (k.kbdHead - k.kbdTail).toNat = q.length
  bound : q.length ≤ 256
  empty : k.keyboardPopScancode.1 = -1 ↔ q = []

section

variable {t : Stdin} {k : Keyboard} {q : List UInt8}

theorem Stdin.holds_of_unread (h : t.unread = q) (hbound : q.length ≤ 1024) : t.Holds q where
  unread := h
  count := by
    rw [← h]
    exact t.unread_length.symm
  bound := hbound
  empty := by
    rw [← h, Stdin.ttyStdinAvailable, decide_eq_false_iff_not, not_not]
    exact (RingBuffer.contents_eq_nil_iff (r := t.ring)).symm

theorem Keyboard.pop_empty_iff (k : Keyboard) : k.keyboardPopScancode.1 = -1 ↔ k.kbdHead = k.kbdTail := by
  rw [Keyboard.keyboardPopScancode]
  split
  · rename_i hempty
    exact ⟨fun _ => hempty.symm, fun _ => rfl⟩
  · rename_i hsome
    refine ⟨fun hneg => ?_, fun heq => absurd heq.symm hsome⟩
    exact absurd hneg (by omega)

theorem Keyboard.holds_of_unread (h : k.unread = q) (hbound : q.length ≤ 256) : k.Holds q where
  unread := h
  count := by
    rw [← h]
    exact (k.ring.length_contents 256).symm
  bound := hbound
  empty := by
    rw [← h, k.pop_empty_iff]
    exact (RingBuffer.contents_eq_nil_iff (r := k.ring)).symm

/-! ### One call -/

theorem Stdin.Holds.push (h : t.Holds q) (c : UInt8) : (t.stdinPush c).Holds (pushDropping 1024 q c) := by
  have hcount : t.pending ≤ 1024 := h.count.trans_le h.bound
  refine Stdin.holds_of_unread ?_ (pushDropping_length (by decide) h.bound c)
  rw [Stdin.unread_push t c hcount, h.unread]

theorem Stdin.Holds.read (h : t.Holds q) (max : ℕ) :
    (t.ttyStdinRead max).1 = q.take max ∧ (t.ttyStdinRead max).2.Holds (q.drop max) := by
  obtain ⟨hbytes, hrest, -⟩ := Stdin.ttyStdinRead_spec max t
  rw [h.unread] at hbytes hrest
  refine ⟨hbytes, Stdin.holds_of_unread hrest ?_⟩
  have hbound := h.bound
  rw [List.length_drop]
  omega

theorem Keyboard.Holds.push (h : k.Holds q) (sc : UInt8) : (k.kbdRingPush sc).Holds (pushDropping 256 q sc) := by
  have hcount : k.ring.count ≤ 256 := h.count.trans_le h.bound
  refine Keyboard.holds_of_unread ?_ (pushDropping_length (by decide) h.bound sc)
  rw [Keyboard.unread, Keyboard.ring_kbdRingPush hcount sc,
    RingBuffer.contents_push (by decide) (by decide) (by decide) hcount, ← h.unread, Keyboard.unread]

/-- What `keyboard_pop_scancode` answers for a queue. -/
def popAnswer (q : List UInt8) : ℤ := (q.head?.map fun sc => (sc.toNat : ℤ)).getD (-1)

theorem Keyboard.Holds.pop (h : k.Holds q) :
    k.keyboardPopScancode.1 = popAnswer q ∧ k.keyboardPopScancode.2.Holds q.tail := by
  by_cases hempty : k.kbdTail = k.kbdHead
  · have hq : q = [] := h.empty.mp (k.pop_empty_iff.mpr hempty.symm)
    rw [hq] at h ⊢
    rw [Keyboard.keyboardPopScancode, if_pos hempty]
    exact ⟨rfl, h⟩
  · have hcons : q = k.kbdRing (k.kbdTail % KBD_RING_SIZE).toNat ::
        ({ k with kbdTail := k.kbdTail + 1 } : Keyboard).unread := by
      rw [← h.unread, Keyboard.cell_toNat]
      exact RingBuffer.contents_drop (r := k.ring) (by decide) (Ne.symm hempty)
    have hbound := h.bound
    rw [Keyboard.keyboardPopScancode, if_neg hempty, hcons]
    refine ⟨rfl, Keyboard.holds_of_unread rfl ?_⟩
    rw [hcons, List.length_cons] at hbound
    exact Nat.le_of_succ_le hbound

/-- `keyboard_set_raw(0)` drops what was not read. -/
theorem Keyboard.Holds.setRaw (h : k.Holds q) (on : ℤ) : (k.keyboardSetRaw on).Holds (if on = 0 then [] else q) := by
  rw [Keyboard.keyboardSetRaw]
  by_cases hon : on = 0
  · simp only [if_pos hon]
    exact Keyboard.holds_of_unread (k.ring.contents_clear 256) (Nat.zero_le _)
  · simp only [if_neg hon]
    exact Keyboard.holds_of_unread h.unread h.bound

end

/-! ### Any calls, in any order -/

inductive StdinCall where
  | push (c : UInt8)
  | read (max : ℕ)

/-- What a call returns, and the ring after it. -/
def StdinCall.exec : StdinCall → Stdin → List UInt8 × Stdin
  | .push c, t => ([], t.stdinPush c)
  | .read max, t => t.ttyStdinRead max

/-- The call on a queue that discards its oldest byte when a push finds 1024. -/
def StdinCall.spec : StdinCall → List UInt8 → List UInt8 × List UInt8
  | .push c, q => ([], pushDropping 1024 q c)
  | .read max, q => (q.take max, q.drop max)

inductive KbdCall where
  | push (sc : UInt8)
  | pop
  | setRaw (on : ℤ)

/-- What a call returns, if anything, and the ring after it. -/
def KbdCall.exec : KbdCall → Keyboard → Option ℤ × Keyboard
  | .push sc, k => (none, k.kbdRingPush sc)
  | .pop, k => (some k.keyboardPopScancode.1, k.keyboardPopScancode.2)
  | .setRaw on, k => (none, k.keyboardSetRaw on)

/-- The call on a queue that discards its oldest scancode when a push finds 256. -/
def KbdCall.spec : KbdCall → List UInt8 → Option ℤ × List UInt8
  | .push sc, q => (none, pushDropping 256 q sc)
  | .pop, q => (some (popAnswer q), q.tail)
  | .setRaw on, q => (none, if on = 0 then [] else q)

theorem StdinCall.step (t : Stdin) (q : List UInt8) (a : StdinCall) (h : t.Holds q) :
    (a.exec t).1 = (a.spec q).1 ∧ (a.exec t).2.Holds (a.spec q).2 := by
  cases a with
  | push c => exact ⟨rfl, h.push c⟩
  | read max => exact h.read max

theorem KbdCall.step (k : Keyboard) (q : List UInt8) (a : KbdCall) (h : k.Holds q) :
    (a.exec k).1 = (a.spec q).1 ∧ (a.exec k).2.Holds (a.spec q).2 := by
  cases a with
  | push sc => exact ⟨rfl, h.push sc⟩
  | pop =>
    obtain ⟨hanswer, hrest⟩ := h.pop
    exact ⟨congrArg some hanswer, hrest⟩
  | setRaw on => exact ⟨rfl, h.setRaw on⟩

theorem Stdin.holds_nil (cells : ℕ → UInt8) (n : UInt32) (line : List UInt8) : Stdin.Holds ⟨cells, n, n, line⟩ [] :=
  Stdin.holds_of_unread ((RingBuffer.contents_eq_nil_iff (r := ⟨cells, n, n⟩)).mpr rfl) (Nat.zero_le _)

theorem Keyboard.holds_nil (cells : ℕ → UInt8) (n : UInt32) (raw : ℤ) : Keyboard.Holds ⟨cells, n, n, raw⟩ [] :=
  Keyboard.holds_of_unread ((RingBuffer.contents_eq_nil_iff (r := ⟨cells, n, n⟩)).mpr rfl) (Nat.zero_le _)

/-- **The input rings are bounded queues that drop the oldest.**  After any calls, from a ring that is empty at any
value of its counters, the answers were those of the queue, and the ring holds what is in the queue. -/
theorem inputRings_fifo (cells : ℕ → UInt8) (n : UInt32) :
    (∀ (line : List UInt8) (calls : List StdinCall),
      (runCalls StdinCall.exec calls ⟨cells, n, n, line⟩).1 = (runCalls StdinCall.spec calls []).1 ∧
        (runCalls StdinCall.exec calls ⟨cells, n, n, line⟩).2.Holds (runCalls StdinCall.spec calls []).2) ∧
    ∀ (raw : ℤ) (calls : List KbdCall),
      (runCalls KbdCall.exec calls ⟨cells, n, n, raw⟩).1 = (runCalls KbdCall.spec calls []).1 ∧
        (runCalls KbdCall.exec calls ⟨cells, n, n, raw⟩).2.Holds (runCalls KbdCall.spec calls []).2 :=
  ⟨fun line calls => runCalls_agree StdinCall.step calls (Stdin.holds_nil cells n line),
    fun raw calls => runCalls_agree KbdCall.step calls (Keyboard.holds_nil cells n raw)⟩

/-! ### The keyboard interrupt and the system calls -/

/-- Both rings. -/
structure Input where
  tty : Stdin
  kbd : Keyboard

/-- One round of the loop of `isr_keyboard`. -/
def Input.key (s : Input) (scancode : UInt8) : Input :=
  if s.kbd.kbdRaw ≠ 0 then { s with kbd := s.kbd.kbdRingPush scancode }
  else { s with tty := s.tty.handlerInput scancode }

/-- `isr_keyboard`, which reads as many scancodes as the controller has. -/
def Input.isrKeyboard (s : Input) (scancodes : List UInt8) : Input := scancodes.foldl key s

/-- `sys_key_get`. -/
def Input.sysKeyGet (s : Input) : ℤ × Input :=
  let r := (s.kbd.keyboardSetRaw 1).keyboardPopScancode
  (if r.1 < 0 then 0 else r.1, { s with kbd := r.2 })

/-- An interrupt, bytes read by `sys_read(0)`, `sys_key_get`, and the flush in `sys_exit`. -/
inductive InputCall where
  | irq (scancodes : List UInt8)
  | read (max : ℕ)
  | keyGet
  | exit

/-- The bytes that a call stores, and what it returns. -/
def InputCall.exec : InputCall → Input → (List UInt8 × ℤ) × Input
  | .irq scancodes, s => (([], 0), s.isrKeyboard scancodes)
  | .read max, s =>
      let r := s.tty.ttyStdinRead max
      ((r.1, r.1.length), { s with tty := r.2 })
  | .keyGet, s => (([], s.sysKeyGet.1), s.sysKeyGet.2)
  | .exit, s => (([], 0), { s with kbd := s.kbd.keyboardSetRaw 0 })

/-- A line editor, a queue of the bytes of its lines, and a queue of scancodes for a program that owns the keyboard. -/
structure InputQueues where
  line : List UInt8
  bytes : List UInt8
  scancodes : List UInt8
  raw : Bool

/-- A key goes to the program, or edits the line, or commits it with a newline. -/
def InputQueues.key (q : InputQueues) (scancode : UInt8) : InputQueues :=
  if q.raw then { q with scancodes := pushDropping 256 q.scancodes scancode }
  else if scancode = KEY_BACKSAPCE then { q with line := q.line.dropLast }
  else if scancode = KEY_ENTER then
    { q with line := [], bytes := (q.line ++ [10]).foldl (pushDropping 1024) q.bytes }
  else if scancode < 0x80 ∧ isAsciiCharacter (convertScancode scancode) = true ∧ q.line.length < TTY_LINE_MAX - 1 then
    { q with line := q.line ++ [convertScancode scancode] }
  else q

def InputCall.spec : InputCall → InputQueues → (List UInt8 × ℤ) × InputQueues
  | .irq scancodes, q => (([], 0), scancodes.foldl InputQueues.key q)
  | .read max, q => ((q.bytes.take max, (q.bytes.take max).length), { q with bytes := q.bytes.drop max })
  | .keyGet, q =>
      (([], (q.scancodes.head?.map fun sc => (sc.toNat : ℤ)).getD 0),
        { q with scancodes := q.scancodes.tail, raw := true })
  | .exit, q => (([], 0), { q with scancodes := [], raw := false })

/-- Both rings hold the queues. -/
structure Input.Holds (s : Input) (q : InputQueues) : Prop where
  tty : s.tty.Holds q.bytes
  line : s.tty.ttyLine = q.line
  kbd : s.kbd.Holds q.scancodes
  raw : s.kbd.kbdRaw ≠ 0 ↔ q.raw = true

section

variable {t : Stdin} {s : Input} {q : InputQueues} {bytes : List UInt8}

/-- The ring does not look at the line. -/
theorem Stdin.Holds.setLine (h : t.Holds bytes) (line : List UInt8) : Stdin.Holds { t with ttyLine := line } bytes :=
  ⟨h.unread, h.count, h.bound, h.empty⟩

theorem Stdin.Holds.pushes (h : t.Holds bytes) (l : List UInt8) :
    (l.foldl Stdin.stdinPush t).Holds (l.foldl (pushDropping 1024) bytes) := by
  induction l generalizing t bytes with
  | nil => exact h
  | cons c l ih => exact ih (h.push c)

theorem Stdin.Holds.commitLine (h : t.Holds bytes) :
    t.commitLine.Holds ((t.ttyLine ++ [10]).foldl (pushDropping 1024) bytes) := by
  have hpushes := h.pushes (t.ttyLine ++ [10])
  rw [List.foldl_append] at hpushes
  exact hpushes.setLine []

theorem Input.Holds.key (h : s.Holds q) (scancode : UInt8) : (s.key scancode).Holds (q.key scancode) := by
  rw [Input.key, InputQueues.key]
  by_cases hraw : q.raw = true
  · rw [if_pos (h.raw.mpr hraw), if_pos hraw]
    refine ⟨h.tty, h.line, h.kbd.push scancode, ?_⟩
    rw [Keyboard.kbdRaw_kbdRingPush]
    exact h.raw
  · rw [if_neg (hraw ∘ h.raw.mp), if_neg hraw, Stdin.handlerInput, ← h.line]
    split
    · split
      · exact ⟨h.tty.setLine _, rfl, h.kbd, h.raw⟩
      · rename_i hline
        have hnil : s.tty.ttyLine = [] := List.eq_nil_of_length_eq_zero (by omega)
        rw [hnil]
        exact ⟨h.tty, hnil, h.kbd, h.raw⟩
    · split
      · exact ⟨h.tty.commitLine, rfl, h.kbd, h.raw⟩
      · by_cases hlow : scancode < 0x80
        · rw [if_pos hlow]
          by_cases hput : isAsciiCharacter (convertScancode scancode) = true ∧ s.tty.ttyLine.length < TTY_LINE_MAX - 1
          · rw [if_pos hput, if_pos ⟨hlow, hput⟩]
            exact ⟨h.tty.setLine _, rfl, h.kbd, h.raw⟩
          · rw [if_neg hput, if_neg fun hall => hput hall.2]
            exact h
        · rw [if_neg hlow, if_neg fun hall => hlow hall.1]
          exact h

theorem Input.Holds.isrKeyboard (h : s.Holds q) (scancodes : List UInt8) :
    (s.isrKeyboard scancodes).Holds (scancodes.foldl InputQueues.key q) := by
  induction scancodes generalizing s q with
  | nil => exact h
  | cons sc scancodes ih => exact ih (h.key sc)

/-- The oldest scancode is returned, or 0 when there is none. -/
theorem Input.Holds.sysKeyGet (h : s.Holds q) :
    s.sysKeyGet.1 = (q.scancodes.head?.map fun sc => (sc.toNat : ℤ)).getD 0 ∧
      s.sysKeyGet.2.Holds { q with scancodes := q.scancodes.tail, raw := true } := by
  have hset : (s.kbd.keyboardSetRaw 1).Holds q.scancodes := h.kbd.setRaw 1
  obtain ⟨hanswer, hrest⟩ := hset.pop
  have hraw : (s.kbd.keyboardSetRaw 1).keyboardPopScancode.2.kbdRaw = 1 := by
    rw [Keyboard.keyboardPopScancode]
    split <;> rfl
  rw [Input.sysKeyGet]
  refine ⟨?_, h.tty, h.line, hrest, ?_⟩
  · show (if (s.kbd.keyboardSetRaw 1).keyboardPopScancode.1 < 0 then 0 else _) = _
    rw [hanswer, popAnswer]
    cases q.scancodes with
    | nil => rfl
    | cons sc l => exact if_neg (by simp)
  · show (s.kbd.keyboardSetRaw 1).keyboardPopScancode.2.kbdRaw ≠ 0 ↔ _
    rw [hraw]
    show (1 : ℤ) ≠ 0 ↔ true = true
    decide

theorem InputCall.step (s : Input) (q : InputQueues) (a : InputCall) (h : s.Holds q) :
    (a.exec s).1 = (a.spec q).1 ∧ (a.exec s).2.Holds (a.spec q).2 := by
  cases a with
  | irq scancodes => exact ⟨rfl, h.isrKeyboard scancodes⟩
  | read max =>
    obtain ⟨hbytes, hrest⟩ := h.tty.read max
    obtain ⟨-, -, hline⟩ := Stdin.ttyStdinRead_spec max s.tty
    refine ⟨?_, hrest, hline.trans h.line, h.kbd, h.raw⟩
    show ((s.tty.ttyStdinRead max).1, ((s.tty.ttyStdinRead max).1.length : ℤ)) = _
    rw [hbytes]
    rfl
  | keyGet =>
    obtain ⟨hanswer, hrest⟩ := h.sysKeyGet
    exact ⟨congrArg (Prod.mk []) hanswer, hrest⟩
  | exit =>
    refine ⟨rfl, h.tty, h.line, h.kbd.setRaw 0, ?_⟩
    show (0 : ℤ) ≠ 0 ↔ false = true
    decide

end

/-- At boot nothing was typed. -/
def Input.boot : Input := ⟨⟨fun _ => 0, 0, 0, []⟩, ⟨fun _ => 0, 0, 0, 0⟩⟩

/-- **Keyboard input** refines a line editor with two queues: any interrupts and system calls, in any order, answer and
store what the queues give. -/
theorem input_refines (calls : List InputCall) :
    (runCalls InputCall.exec calls .boot).1 = (runCalls InputCall.spec calls ⟨[], [], [], false⟩).1 ∧
      (runCalls InputCall.exec calls .boot).2.Holds (runCalls InputCall.spec calls ⟨[], [], [], false⟩).2 := by
  have hboot : Input.boot.Holds ⟨[], [], [], false⟩ :=
    ⟨Stdin.holds_nil _ 0 [], rfl, Keyboard.holds_nil _ 0 0, by decide⟩
  exact runCalls_agree InputCall.step calls hboot

end LizardOs.Tty
