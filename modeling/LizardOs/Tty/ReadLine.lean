import LizardOs.Lib.RingBuffer
import LizardOs.Lib.Steps
import LizardOs.Tty.Stdin

/-!
# Lines typed and lines read

The keyboard commits lines to the ring of `tty.c`, and `read_line` of the shell puts them together again: it reads
until the last byte it got is a newline or its buffer is full.  A run records the lines committed with Enter and
the strings that `read_line` returns.

When each read finds one whole line, no more and no less, the strings are the lines, in order.  Two lines that were
typed ahead come back as one string, and a line that fills the buffer leaves its newline for the next call.
-/

namespace LizardOs.Tty

open LizardOs.Lib

namespace Stdin

/-! ### The ring as a queue -/

/-- How many bytes have not been read. -/
def pending (t : Stdin) : ℕ := (t.stdinHead - t.stdinTail).toNat

/-- The bytes that have not been read, oldest first. -/
def unread (t : Stdin) : List UInt8 :=
  (List.range t.pending).map fun i => t.stdinRing ((t.stdinTail.toNat + i) % 1024)

/-- The ring without the line. -/
def ring (t : Stdin) : RingBuffer UInt8 := ⟨t.stdinRing, t.stdinHead, t.stdinTail⟩

theorem unread_eq (t : Stdin) : t.unread = t.ring.contents 1024 := rfl

theorem unread_length (t : Stdin) : t.unread.length = t.pending := t.ring.length_contents 1024

theorem cell_toNat (x : UInt32) : (x % STDIN_RING_SIZE).toNat = x.toNat % 1024 := by
  rw [UInt32.toNat_mod]
  rfl

theorem ring_stdinPush (t : Stdin) (c : UInt8) : (t.stdinPush c).ring = t.ring.push 1024 c := by
  have hiff : STDIN_RING_SIZE ≤ t.stdinHead - t.stdinTail ↔ ¬t.ring.count < 1024 := by
    rw [Nat.not_lt]
    exact UInt32.le_iff_toNat_le
  rw [RingBuffer.push, stdinPush]
  by_cases hfull : STDIN_RING_SIZE ≤ t.stdinHead - t.stdinTail
  · rw [if_neg (hiff.mp hfull), if_pos hfull, ring, cell_toNat]
    rfl
  · rw [if_pos (not_not.mp (hfull ∘ hiff.mpr)), if_neg hfull, ring, cell_toNat]
    rfl

theorem ttyLine_stdinPush (t : Stdin) (c : UInt8) : (t.stdinPush c).ttyLine = t.ttyLine := by
  rw [stdinPush]
  simp only []
  split <;> rfl

/-- A push is the push of a queue that drops its oldest byte. -/
theorem unread_push (t : Stdin) (c : UInt8) (hcount : t.pending ≤ 1024) :
    (t.stdinPush c).unread = pushDropping 1024 t.unread c := by
  rw [unread_eq, ring_stdinPush]
  exact RingBuffer.contents_push (by decide) (by decide) (by decide) hcount c

/-- A byte pushed to a ring with room is the newest one. -/
theorem unread_stdinPush (t : Stdin) (c : UInt8) (hroom : t.pending < 1024) :
    (t.stdinPush c).unread = t.unread ++ [c] ∧ (t.stdinPush c).ttyLine = t.ttyLine := by
  rw [unread_push t c hroom.le, pushDropping, unread_length, if_pos hroom]
  exact ⟨rfl, ttyLine_stdinPush t c⟩

/-- A line pushed to a ring with room comes behind the bytes that are there. -/
theorem unread_pushes (line : List UInt8) (t : Stdin) (hroom : t.pending + line.length ≤ 1024) :
    (line.foldl stdinPush t).unread = t.unread ++ line ∧ (line.foldl stdinPush t).ttyLine = t.ttyLine := by
  induction line generalizing t with
  | nil => exact ⟨(List.append_nil _).symm, rfl⟩
  | cons c line ih =>
    rw [List.length_cons] at hroom
    obtain ⟨hpush, hline⟩ := unread_stdinPush t c (by omega)
    have hcount : (t.stdinPush c).pending = t.pending + 1 := by
      rw [← unread_length, hpush, List.length_append, unread_length]
      rfl
    obtain ⟨hrest, hline'⟩ := ih (t.stdinPush c) (by omega)
    rw [List.foldl_cons]
    refine ⟨?_, hline'.trans hline⟩
    rw [hrest, hpush, List.append_assoc]
    rfl

/-- Enter puts the line and a newline behind what has not been read. -/
theorem unread_commitLine (t : Stdin) (hroom : t.pending + t.ttyLine.length + 1 ≤ 1024) :
    t.commitLine.unread = t.unread ++ (t.ttyLine ++ [10]) := by
  obtain ⟨hline, -⟩ := unread_pushes t.ttyLine t (by omega)
  have hcount : (t.ttyLine.foldl stdinPush t).pending = t.pending + t.ttyLine.length := by
    rw [← unread_length, hline, List.length_append, unread_length]
  obtain ⟨hnewline, -⟩ := unread_stdinPush (t.ttyLine.foldl stdinPush t) 10 (by omega)
  show ((t.ttyLine.foldl stdinPush t).stdinPush 10).unread = _
  rw [hnewline, hline, List.append_assoc]

/-- `tty_stdin_read` takes the oldest bytes. -/
theorem ttyStdinRead_spec (max : ℕ) (t : Stdin) :
    (t.ttyStdinRead max).1 = t.unread.take max ∧ (t.ttyStdinRead max).2.unread = t.unread.drop max ∧
      (t.ttyStdinRead max).2.ttyLine = t.ttyLine := by
  induction max generalizing t with
  | zero => exact ⟨rfl, rfl, rfl⟩
  | succ max ih =>
    rw [ttyStdinRead]
    by_cases hempty : t.stdinTail = t.stdinHead
    · rw [if_neg (not_not.mpr hempty)]
      have hnil : t.unread = [] := (RingBuffer.contents_eq_nil_iff (r := t.ring)).mpr hempty.symm
      rw [hnil]
      exact ⟨rfl, rfl, rfl⟩
    · rw [if_pos hempty]
      have hcons : t.unread = t.stdinRing (t.stdinTail % STDIN_RING_SIZE).toNat ::
          ({ t with stdinTail := t.stdinTail + 1 } : Stdin).unread := by
        rw [cell_toNat]
        exact RingBuffer.contents_drop (r := t.ring) (by decide) (Ne.symm hempty)
      obtain ⟨h1, h2, h3⟩ := ih { t with stdinTail := t.stdinTail + 1 }
      rw [hcons]
      refine ⟨?_, h2, h3⟩
      rw [List.take_succ_cons, ← h1]

end Stdin

/-! ### `read_line` -/

/-- `LINE_MAX` of the shell, the size of the buffer it calls `read_line` with. -/
def LINE_MAX : ℕ := 256

/-- The loop at the end of `read_line`: newlines and carriage returns are cut off. -/
def stripLine (buf : List UInt8) : List UInt8 := (buf.reverse.dropWhile fun c => decide (c = 10 ∨ c = 13)).reverse

/-- The console and the shell inside `read_line`: what its buffer holds, the lines committed with Enter, and the
strings returned. -/
structure ShellRun where
  tty : Stdin
  buf : List UInt8
  committed : List (List UInt8)
  returned : List (List UInt8)

inductive ShellAction where
  | key (scancode : UInt8)
  | read
deriving DecidableEq

namespace ShellRun

/-- One `read(0, buf + len, cap - 1 - len)` of `read_line`, and its return when the line or the buffer is complete. -/
def readLine (s : ShellRun) : ShellRun :=
  let r := s.tty.ttyStdinRead (LINE_MAX - 1 - s.buf.length)
  let buf := s.buf ++ r.1
  if buf.getLast? = some 10 ∨ LINE_MAX - 1 ≤ buf.length then
    { s with tty := r.2, buf := [], returned := s.returned ++ [stripLine buf] }
  else { s with tty := r.2, buf := buf }

/-- A key in cooked mode, or a read of the shell.  A line is committed only when the ring has room for it, and the
shell sleeps while there is nothing to read. -/
def exec (s : ShellRun) : ShellAction → Option ShellRun
  | .key scancode =>
      if scancode = KEY_ENTER then
        if s.tty.pending + s.tty.ttyLine.length + 1 ≤ 1024 then
          some { s with tty := s.tty.handlerInput scancode, committed := s.committed ++ [s.tty.ttyLine] }
        else none
      else some { s with tty := s.tty.handlerInput scancode }
  | .read => if s.tty.ttyStdinAvailable = true then some s.readLine else none

def Step (s : ShellRun) (a : ShellAction) (s' : ShellRun) : Prop := s.exec a = some s'

/-- Nothing typed and nothing read. -/
def start : ShellRun := ⟨⟨fun _ => 0, 0, 0, []⟩, [], [], []⟩

/-- The ring up to its first newline. -/
def oldestLine (s : ShellRun) : List UInt8 := s.tty.unread.takeWhile fun c => decide (c ≠ 10)

/-- What a read takes is one whole line: it is alone in the ring, or it fills the buffer with its newline. -/
def WholeLine (s : ShellRun) : Prop :=
  (s.tty.unread.length = s.oldestLine.length + 1 ∧ s.oldestLine.length < LINE_MAX - 1) ∨
    (s.oldestLine.length < s.tty.unread.length ∧ s.oldestLine.length + 1 = LINE_MAX - 1)

instance (s : ShellRun) : Decidable s.WholeLine := inferInstanceAs (Decidable (_ ∨ _))

/-- The ring holds the lines committed and not returned, each with its newline. -/
structure Inv (s : ShellRun) : Prop where
  buf : s.buf = []
  queue : ∃ lines, s.committed = s.returned ++ lines ∧ s.tty.unread = lines.flatMap (· ++ [10]) ∧
    ∀ line ∈ lines, ∀ c ∈ line, 32 ≤ c
  line : ∀ c ∈ s.tty.ttyLine, 32 ≤ c

variable {s s' : ShellRun}

theorem stripLine_newline {line : List UInt8} (h : ∀ c ∈ line, 32 ≤ c) : stripLine (line ++ [10]) = line := by
  rw [stripLine, List.reverse_append, List.reverse_singleton, List.singleton_append,
    List.dropWhile_cons_of_pos (by decide)]
  have hstop : line.reverse.dropWhile (fun c => decide (c = 10 ∨ c = 13)) = line.reverse := by
    cases hrev : line.reverse with
    | nil => rfl
    | cons c l =>
      have hc : 32 ≤ c := by
        apply h c
        rw [← List.mem_reverse, hrev]
        exact List.mem_cons_self
      apply List.dropWhile_cons_of_neg
      rw [decide_eq_true_eq]
      rintro (rfl | rfl)
      · exact absurd hc (by decide)
      · exact absurd hc (by decide)
  rw [hstop, List.reverse_reverse]

theorem takeWhile_line {line rest : List UInt8} (h : ∀ c ∈ line, 32 ≤ c) :
    (line ++ 10 :: rest).takeWhile (fun c => decide (c ≠ 10)) = line := by
  have hall : ∀ c ∈ line, decide (c ≠ 10) = true := by
    intro c hc
    apply decide_eq_true
    rintro rfl
    exact absurd (h 10 hc) (by decide)
  rw [List.takeWhile_append_of_pos hall, List.takeWhile_cons_of_neg (by decide), List.append_nil]

/-- A key edits the line, or commits it. -/
theorem Inv.key {scancode : UInt8} (hi : Inv s) (hstep : s.Step (.key scancode) s') : Inv s' := by
  obtain ⟨lines, hcom, hring, hchars⟩ := hi.queue
  rw [Step, exec] at hstep
  split at hstep
  · rename_i henter
    obtain ⟨hroom, hsome⟩ := Option.ite_none_right_eq_some.mp hstep
    obtain rfl := Option.some.inj hsome
    have htty : s.tty.handlerInput scancode = s.tty.commitLine := by
      rw [henter, Stdin.handlerInput, if_neg (by decide), if_pos rfl]
    refine ⟨hi.buf, ⟨lines ++ [s.tty.ttyLine], ?_, ?_, fun line hline => ?_⟩, ?_⟩
    · show s.committed ++ [s.tty.ttyLine] = s.returned ++ (lines ++ [s.tty.ttyLine])
      rw [hcom, List.append_assoc]
    · show (s.tty.handlerInput scancode).unread = _
      rw [htty, Stdin.unread_commitLine s.tty hroom, hring, List.flatMap_append, List.flatMap_singleton]
    · rcases List.mem_append.mp hline with hline | hline
      · exact hchars line hline
      · rw [List.mem_singleton.mp hline]
        exact hi.line
    · show ∀ c ∈ (s.tty.handlerInput scancode).ttyLine, 32 ≤ c
      rw [htty]
      exact fun c hc => absurd hc List.not_mem_nil
  · rename_i henter
    obtain rfl := Option.some.inj hstep
    have hboth : (s.tty.handlerInput scancode).unread = s.tty.unread ∧
        ∀ c ∈ (s.tty.handlerInput scancode).ttyLine, 32 ≤ c := by
      rw [Stdin.handlerInput]
      split
      · split
        · exact ⟨rfl, fun c hc => hi.line c (List.dropLast_subset _ hc)⟩
        · exact ⟨rfl, hi.line⟩
      · split
        · split
          · rename_i hascii
            refine ⟨rfl, fun c hc => ?_⟩
            rcases List.mem_append.mp hc with hc | hc
            · exact hi.line c hc
            · rw [List.mem_singleton.mp hc]
              exact (of_decide_eq_true hascii.1).1
          · exact ⟨rfl, hi.line⟩
        · exact ⟨rfl, hi.line⟩
    exact ⟨hi.buf, ⟨lines, hcom, hboth.1.trans hring, hchars⟩, hboth.2⟩

/-- A read that takes one whole line returns it. -/
theorem Inv.read (hi : Inv s) (hwhole : s.WholeLine) : Inv s.readLine := by
  obtain ⟨lines, hcom, hring, hchars⟩ := hi.queue
  have hlimit : LINE_MAX - 1 = 255 := rfl
  rw [WholeLine, oldestLine, hlimit] at hwhole
  cases lines with
  | nil =>
    rw [hring] at hwhole
    exact absurd hwhole (by decide)
  | cons first lines =>
    have hfirst : ∀ c ∈ first, 32 ≤ c := hchars first List.mem_cons_self
    have hunread : s.tty.unread = first ++ 10 :: lines.flatMap (· ++ [10]) := by
      rw [hring, List.flatMap_cons, List.append_assoc]
      rfl
    -- the line of the read is the oldest line of the queue
    rw [hunread, takeWhile_line hfirst, List.length_append, List.length_cons] at hwhole
    have hmax : LINE_MAX - 1 - s.buf.length = 255 := by
      rw [hi.buf]
      rfl
    obtain ⟨htake, hdrop, hline⟩ := Stdin.ttyStdinRead_spec 255 s.tty
    have hsplit : first ++ 10 :: lines.flatMap (· ++ [10]) = (first ++ [10]) ++ lines.flatMap (· ++ [10]) := by simp
    have hpair : s.tty.unread.take 255 = first ++ [10] ∧ s.tty.unread.drop 255 = lines.flatMap (· ++ [10]) := by
      rw [hunread, hsplit]
      rcases hwhole with ⟨hlen, hshort⟩ | ⟨-, hfull⟩
      · have hrest : lines.flatMap (· ++ [10]) = [] := List.eq_nil_of_length_eq_zero (by omega)
        rw [hrest, List.append_nil]
        have hle : (first ++ [10]).length ≤ 255 := by
          rw [List.length_append, List.length_singleton]
          omega
        exact ⟨List.take_of_length_le hle, List.drop_of_length_le hle⟩
      · have heq : (first ++ [10]).length = 255 := by
          rw [List.length_append, List.length_singleton]
          omega
        rw [← heq]
        exact ⟨List.take_left, List.drop_left⟩
    have hread : s.readLine = { s with
        tty := (s.tty.ttyStdinRead 255).2, buf := [], returned := s.returned ++ [first] } := by
      rw [readLine]
      simp only [hmax]
      rw [htake, hpair.1, hi.buf, List.nil_append, if_pos (.inl List.getLast?_concat), stripLine_newline hfirst]
    rw [hread]
    refine ⟨rfl, ⟨lines, ?_, ?_, fun l hl => hchars l (List.mem_cons_of_mem _ hl)⟩, ?_⟩
    · show s.committed = s.returned ++ [first] ++ lines
      rw [hcom, List.append_assoc]
      rfl
    · show (s.tty.ttyStdinRead 255).2.unread = _
      rw [hdrop, hpair.2]
    · show ∀ c ∈ (s.tty.ttyStdinRead 255).2.ttyLine, 32 ≤ c
      rw [hline]
      exact hi.line

/-- **One typed line is one shell line** in every run whose reads find one whole line each. -/
theorem lines_of_run {l : List (ShellRun × ShellAction)} {s : ShellRun} (h : Trace Step start l s)
    (hreads : ∀ x ∈ l, x.2 = .read → x.1.WholeLine) : s.returned <+: s.committed := by
  have hstart : Inv start := ⟨rfl, ⟨[], rfl, rfl, by simp⟩, by simp [start]⟩
  have hinv : Inv s := by
    apply h.invariant hstart
    intro x hx s₂ hi hstep
    cases ha : x.2 with
    | key scancode =>
      rw [ha] at hstep
      exact hi.key hstep
    | read =>
      rw [ha] at hstep
      obtain ⟨-, hsome⟩ := Option.ite_none_right_eq_some.mp hstep
      rw [← Option.some.inj hsome]
      exact hi.read (hreads x hx ha)
  obtain ⟨lines, hcom, -⟩ := hinv.queue
  exact ⟨lines, hcom.symm⟩

/-- "a" and "b", each read before the next is typed. -/
def readEach : List ShellAction :=
  [.key 0x1E, .key 0x1C, .read, .key 0x30, .key 0x2E, .key 0x0E, .key 0x1C, .read]

theorem lines_of_run_readEach :
    (runLast exec start readEach).returned = [[97], [98]] ∧
      (runLast exec start readEach).returned <+: (runLast exec start readEach).committed := by
  have hsteps : (runSteps exec start readEach).isSome = true := by decide
  have htrace : Trace Step start (runPassed exec start readEach) (runLast exec start readEach) := trace_runLast hsteps
  have hwhole : ∀ x ∈ runPassed exec start readEach, x.2 = .read → x.1.WholeLine := by decide
  exact ⟨by decide, lines_of_run htrace hwhole⟩

/-- "a" and "b" typed ahead. -/
def typedAhead : List ShellAction := [.key 0x1E, .key 0x1C, .key 0x30, .key 0x1C, .read]

/-- Two lines typed ahead come back as one string. -/
theorem typedAhead_one_string : ¬∀ s, Reaches Step start s → s.returned <+: s.committed := by
  intro hall
  have hsteps : (runSteps exec start typedAhead).isSome = true := by decide
  have hprefix := hall (runLast exec start typedAhead) ((trace_runLast hsteps).reaches .start)
  have hreturned : (runLast exec start typedAhead).returned = [[97, 10, 98]] := by decide
  have hcommitted : (runLast exec start typedAhead).committed = [[97], [98]] := by decide
  rw [hreturned, hcommitted] at hprefix
  exact absurd hprefix (by decide)

end ShellRun

end LizardOs.Tty
