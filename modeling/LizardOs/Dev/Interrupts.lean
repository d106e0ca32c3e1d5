import LizardOs.Dev.Pic
import LizardOs.Lib.Steps
import Mathlib.Data.List.Basic
import Mathlib.Tactic.IntervalCases

/-!
# Interrupts while the kernel boots and runs

The kernel, its interrupt handlers, the two controllers and the keyboard controller take their steps in any order.  The
kernel clears `isr_table` and programs the controllers with interrupts off; it starts the timer, turns interrupts on,
empties the keyboard buffer and lets the keyboard line through.  Each port access is a step of its own, so that an
interrupt may come between the read and the write of `PIC_unmaskIRQ`, and a key between two reads of a handler.

No key is lost or read twice, no vector below 32 is taken, and nothing is in service when the processor may take an
interrupt (`interrupts_run`).
-/

namespace LizardOs.Dev

open LizardOs.Lib

def KEYBOARD_VECTOR : ℕ := 33
def PIT_VECTOR_INDEX : ℕ := 32
def SCHEDULER_ISR_INDEX : ℕ := 48
def PIT_COMMAND : UInt16 := 0x43
def PIT_CHANNEL0 : UInt16 := 0x40
def PIT_DESIRED_FREQUENCY_HZ : ℕ := 1193182 / 1000

/-- What `isr_table` may point to. -/
inductive Handler where
  | pit
  | keyboard
  | scheduler
deriving DecidableEq

/-- A step of kernel code.  `rmw` is the read in `PIC_unmaskIRQ`, which leaves the write to do; `kbdTest` is the test of
the status port before a byte is read, and `kbdRead` the read; `drain` says whether it is `init_keyboard` that reads. -/
inductive Op where
  | outb (port : UInt16) (value : UInt8)
  | rmw (port : UInt16) (irq : UInt8)
  | clearTable
  | setIsr (v : ℕ) (h : Handler)
  | sti
  | tick
  | kbdTest (drain : Bool)
  | kbdRead (drain : Bool)
  | iret (interrupts : Bool)

/-! ### The code -/

/-- `PIC_remap`. -/
def picRemap : List Op :=
  [.outb PIC1_COMMAND PIC_INIT_COMMAND, .outb PIC2_COMMAND PIC_INIT_COMMAND,
    .outb PIC1_DATA PIC_VECTOR_OFFSET1, .outb PIC2_DATA PIC_VECTOR_OFFSET2,
    .outb PIC1_DATA PIC_CASCADE_CONFIG, .outb PIC2_DATA 0x02,
    .outb PIC1_DATA PIC_MODE_CONFIG, .outb PIC2_DATA PIC_MODE_CONFIG,
    .outb PIC1_DATA 0xFF, .outb PIC2_DATA 0xFF]

/-- `PIC_sendEOI`. -/
def picSendEOI (irq : ℕ) : List Op :=
  (if 8 ≤ irq then [.outb PIC2_COMMAND PIC_EOI] else []) ++ [.outb PIC1_COMMAND PIC_EOI]

/-- `PIC_unmaskIRQ`. -/
def picUnmaskIRQ (irq : UInt8) : Op := if irq < 8 then .rmw PIC1_DATA irq else .rmw PIC2_DATA (irq - 8)

/-- `PIC_unmaskVector`. -/
def picUnmaskVector (v : ℕ) : List Op := if v < 32 ∨ 47 < v then [] else [picUnmaskIRQ (UInt8.ofNat (v - 32))]

/-- `pit_init`. -/
def pitInit : List Op :=
  [.outb PIT_COMMAND 0b00110110, .outb PIT_CHANNEL0 (UInt8.ofNat (PIT_DESIRED_FREQUENCY_HZ % 256)),
    .outb PIT_CHANNEL0 (UInt8.ofNat (PIT_DESIRED_FREQUENCY_HZ / 256)), .setIsr PIT_VECTOR_INDEX .pit]

/-- `init_keyboard`. -/
def initKeyboard : List Op := [.kbdTest true, .setIsr KEYBOARD_VECTOR .keyboard] ++ picUnmaskVector KEYBOARD_VECTOR

/-- `kernel_bootstrap`, as far as interrupts see it: `init_idt` and `PIC_remap`, `sched_init`, `timer_init`,
`timer_start`, `start_interrupts`, `init_keyboard`. -/
def kernelBootstrap : List Op :=
  [.clearTable] ++ picRemap ++ [.setIsr SCHEDULER_ISR_INDEX .scheduler] ++ pitInit ++ picUnmaskVector PIT_VECTOR_INDEX ++
    [.sti] ++ initKeyboard

/-- `isr_pit`, `isr_keyboard` and `isr_scheduler`. -/
def Handler.code : Handler → List Op
  | .pit => .tick :: picSendEOI PIT_VECTOR_INDEX
  | .keyboard => .kbdTest false :: picSendEOI 1
  | .scheduler => []

/-- `isr_common_entry` for a vector that is not an exception. -/
def isrCommonEntry (table : ℕ → Option Handler) (v : ℕ) : List Op :=
  match table v with
  | some h => h.code ++ picSendEOI 15
  | none => []

/-! ### The machine -/

/-- The machine: the controllers; the keyboard controller with its output buffer and the bytes behind it; `isr_table`;
whether interrupts are on; and the code to run.  The rest is the record of what has happened. -/
structure Machine where
  pics : Pics
  queue : List UInt8
  obf : Option UInt8
  table : ℕ → Option Handler
  interrupts : Bool
  code : List Op
  typed : List UInt8
  dropped : List UInt8
  seen : List UInt8
  vectors : List ℕ
  ticks : ℕ

/-- What may happen next. -/
inductive Event where
  | raise (line : ℕ)
  | key (c : UInt8)
  | load
  | deliver
  | spurious
  | step
  | cli
  | sti
  | yield

namespace Machine

/-- The processor enters the handler of a vector. -/
def enter (m : Machine) (v : ℕ) : Machine :=
  { m with
    code := isrCommonEntry m.table v ++ .iret m.interrupts :: m.code
    interrupts := false }

/-- One step of the code. -/
def run (m : Machine) : Op → List Op → Machine
  | .outb port value, rest => { m with pics := m.pics.outb port value, code := rest }
  | .rmw port irq, rest => { m with code := .outb port (m.pics.inb port &&& ~~~(1 <<< irq)) :: rest }
  | .clearTable, rest => { m with table := fun _ => none, code := rest }
  | .setIsr v h, rest => { m with table := Function.update m.table v (some h), code := rest }
  | .sti, rest => { m with interrupts := true, code := rest }
  | .tick, rest => { m with ticks := m.ticks + 1, code := rest }
  | .kbdTest drain, rest =>
      { m with code := if m.obf.isSome then .kbdRead drain :: .kbdTest drain :: rest else rest }
  | .kbdRead drain, rest =>
      { m with
        obf := none
        dropped := if drain then m.dropped ++ m.obf.toList else m.dropped
        seen := if drain then m.seen else m.seen ++ m.obf.toList
        code := rest }
  | .iret interrupts, rest => { m with interrupts := interrupts, code := rest }

/-- What an event leads to.  Lines 1 and 2 belong to the keyboard and to the second controller.  `cli`, `sti` and the
`int 48` of `task_yield` stand for all that the kernel and its tasks do about interrupts once it has booted. -/
def exec (m : Machine) : Event → Option Machine
  | .raise line =>
      if line < 16 ∧ line ≠ 1 ∧ line ≠ 2 then some { m with pics := m.pics.raise line } else none
  | .key c => some { m with queue := m.queue ++ [c], typed := m.typed ++ [c] }
  | .load =>
      match m.obf, m.queue with
      | none, c :: queue => some { m with obf := some c, queue := queue, pics := m.pics.raise 1 }
      | _, _ => none
  | .deliver =>
      if m.interrupts = true then
        m.pics.acknowledge.map fun r => ({ m with pics := r.2, vectors := r.1 :: m.vectors } : Machine).enter r.1
      else none
  | .spurious =>
      if m.interrupts = true then
        some (({ m with vectors := (m.pics.master.config.base.toNat + 7) :: m.vectors } : Machine).enter
          (m.pics.master.config.base.toNat + 7))
      else none
  | .step =>
      match m.code with
      | [] => none
      | op :: rest => some (m.run op rest)
  | .cli => if m.code = [] then some { m with interrupts := false } else none
  | .sti => if m.code = [] then some { m with interrupts := true } else none
  | .yield => if m.code = [] then some (m.enter SCHEDULER_ISR_INDEX) else none

def Step (m : Machine) (e : Event) (m' : Machine) : Prop := m.exec e = some m'

theorem of_guard {p : Prop} [Decidable p] {m m' : Machine} (h : (if p then some m else none) = some m') :
    p ∧ m = m' := by
  obtain ⟨hp, heq⟩ := Option.ite_none_right_eq_some.mp h
  exact ⟨hp, Option.some.inj heq⟩

/-- The machine that the firmware leaves to the kernel. -/
def boot (pics : Pics) (queue : List UInt8) (obf : Option UInt8) (table : ℕ → Option Handler) : Machine :=
  ⟨pics, queue, obf, table, false, kernelBootstrap, obf.toList ++ queue, [], [], [], 0⟩

end Machine

/-! ### How far the kernel has booted -/

/-- The programs of the two controllers. -/
def Pics.configs (p : Pics) : PicConfig × PicConfig := (p.master.config, p.slave.config)

/-- A write to a port, as far as the programs of the controllers go. -/
def configOutb (port : UInt16) (value : UInt8) (c : PicConfig × PicConfig) : PicConfig × PicConfig :=
  if port = PIC1_COMMAND then (c.1.command value, c.2)
  else if port = PIC1_DATA then (c.1.data value, c.2)
  else if port = PIC2_COMMAND then (c.1, c.2.command value)
  else if port = PIC2_DATA then (c.1, c.2.data value)
  else c

/-- The mask that `PIC_unmaskIRQ` writes. -/
def unmasked (port : UInt16) (irq : UInt8) (c : PicConfig × PicConfig) : UInt8 :=
  (if port = PIC1_DATA then c.1.imr else c.2.imr) &&& ~~~(1 <<< irq)

/-- What a step of the boot code programs into the controllers. -/
def Op.program : Op → PicConfig × PicConfig → PicConfig × PicConfig
  | .outb port value, c => configOutb port value c
  | .rmw port irq, c => configOutb port (unmasked port irq c) c
  | _, c => c

/-- What a step of the boot code makes of `isr_table`. -/
def Op.enroll : Op → (ℕ → Option Handler) → ℕ → Option Handler
  | .clearTable, _ => fun _ => none
  | .setIsr v h, t => Function.update t v (some h)
  | _, t => t

/-- The programs after `k` steps of the boot code. -/
def configAt (s : PicConfig × PicConfig) (k : ℕ) : PicConfig × PicConfig :=
  (kernelBootstrap.take k).foldl (fun c op => op.program c) s

/-- The table after `k` steps of the boot code. -/
def tableAt (t : ℕ → Option Handler) (k : ℕ) : ℕ → Option Handler :=
  (kernelBootstrap.take k).foldl (fun t op => op.enroll t) t

/-- The boot code that is left after `k` of its steps: a mask that is read is still to be written, and a byte that is
found in the buffer still to be read. -/
inductive Rest (s : PicConfig × PicConfig) : ℕ → List Op → Prop
  | next (k : ℕ) : Rest s k (kernelBootstrap.drop k)
  | write {k : ℕ} {port : UInt16} {irq : UInt8} (h : kernelBootstrap[k]? = some (.rmw port irq)) :
      Rest s k (.outb port (unmasked port irq (configAt s k)) :: kernelBootstrap.drop (k + 1))
  | read : Rest s 18 (.kbdRead true :: kernelBootstrap.drop 18)

section

variable {s : PicConfig × PicConfig} {t : ℕ → Option Handler} {k : ℕ}

theorem configAt_succ {op : Op} (h : kernelBootstrap[k]? = some op) :
    configAt s (k + 1) = op.program (configAt s k) := by
  rw [configAt, List.take_add_one, h, List.foldl_append]
  rfl

theorem tableAt_succ {op : Op} (h : kernelBootstrap[k]? = some op) : tableAt t (k + 1) = op.enroll (tableAt t k) := by
  rw [tableAt, List.take_add_one, h, List.foldl_append]
  rfl

theorem configs_outb (p : Pics) (port : UInt16) (value : UInt8) :
    (p.outb port value).configs = configOutb port value p.configs := by
  have hcommand : ∀ q : Pic, (q.command value).config = q.config.command value := by
    intro q
    rw [Pic.command, PicConfig.command]
    split
    · rfl
    · split
      · rw [Pic.eoi]
        split <;> rfl
      · rfl
  rw [Pics.outb, configOutb]
  split
  · exact Prod.ext (hcommand _) rfl
  · split
    · rfl
    · split
      · exact Prod.ext rfl (hcommand _)
      · split <;> rfl

/-- **The program of the controllers** once interrupts are on. -/
theorem configAt_late (hk : 18 ≤ k) : configAt s k =
    (⟨.ready, 32, if k ≤ 20 then 0xFE else 0xFC, 4, false⟩, ⟨.ready, 40, 0xFF, 2, false⟩) := by
  have hremap : configAt s 16 = (⟨.ready, 32, 0xFF, 4, false⟩, ⟨.ready, 40, 0xFF, 2, false⟩) := rfl
  have htimer : configAt s 17 = (⟨.ready, 32, 0xFE, 4, false⟩, ⟨.ready, 40, 0xFF, 2, false⟩) := by
    rw [configAt_succ (show kernelBootstrap[16]? = some (.rmw PIC1_DATA 0) from rfl), hremap]
    decide
  have hkeyboard : configAt s 21 = (⟨.ready, 32, 0xFC, 4, false⟩, ⟨.ready, 40, 0xFF, 2, false⟩) := by
    have h20 : configAt s 20 = configAt s 17 := rfl
    rw [configAt_succ (show kernelBootstrap[20]? = some (.rmw PIC1_DATA 1) from rfl), h20, htimer]
    decide
  by_cases hk20 : k ≤ 20
  · have hsame : configAt s k = configAt s 17 := by
      interval_cases k <;> rfl
    rw [hsame, htimer, if_pos hk20]
  · have hlast : configAt s k = configAt s 21 := by
      rw [configAt, List.take_of_length_le (show kernelBootstrap.length ≤ k by exact Nat.lt_of_not_le hk20)]
      rfl
    rw [hlast, hkeyboard, if_neg hk20]

/-- `isr_table` once interrupts are on: the keyboard has no handler before its line is let through. -/
theorem tableAt_late (hk : 18 ≤ k) (v : ℕ) : tableAt t k v =
    if v = SCHEDULER_ISR_INDEX then some .scheduler
    else if v = PIT_VECTOR_INDEX then some .pit
    else if v = KEYBOARD_VECTOR ∧ 20 ≤ k then some .keyboard
    else none := by
  have htimer : tableAt t 18 = Function.update (Function.update (fun _ => none) SCHEDULER_ISR_INDEX (some .scheduler))
      PIT_VECTOR_INDEX (some .pit) := rfl
  have hkeyboard : tableAt t 21 = Function.update (tableAt t 18) KEYBOARD_VECTOR (some .keyboard) := rfl
  have hall : tableAt t k = if 20 ≤ k then tableAt t 21 else tableAt t 18 := by
    by_cases hk20 : k ≤ 20
    · interval_cases k <;> rfl
    · rw [tableAt, List.take_of_length_le (show kernelBootstrap.length ≤ k by exact Nat.lt_of_not_le hk20),
        if_pos (by omega)]
      rfl
  rw [hall]
  split
  · rename_i hk20
    rw [hkeyboard, htimer]
    simp only [Function.update_apply, hk20, and_true]
    by_cases h33 : v = KEYBOARD_VECTOR
    · rw [h33]
      decide
    · rw [if_neg h33, if_neg h33]
      split
      · rename_i h32
        rw [h32]
        decide
      · rfl
  · rename_i hk20
    rw [htimer]
    simp only [Function.update_apply, hk20, and_false, if_false]
    split
    · rename_i h32
      rw [h32]
      decide
    · rfl

/-- Where the steps stand in the boot code. -/
def Op.Placed (k : ℕ) : Op → Prop
  | .outb port value => k ≤ 14 ∧ (k = 1 ∧ port = PIC1_COMMAND ∧ value = PIC_INIT_COMMAND ∨
      k = 2 ∧ port = PIC2_COMMAND ∧ value = PIC_INIT_COMMAND ∨ port ≠ PIC1_COMMAND ∧ port ≠ PIC2_COMMAND ∧ k ≠ 1 ∧ k ≠ 2)
  | .rmw port _ => (k = 16 ∨ k = 20) ∧ port = PIC1_DATA
  | .clearTable => k = 0
  | .setIsr _ _ => k = 11 ∨ k = 15 ∨ k = 19
  | .sti => k = 17
  | .kbdTest drain => k = 18 ∧ drain = true
  | _ => False

theorem placed {op : Op} (h : kernelBootstrap[k]? = some op) : op.Placed k := by
  have hk : k < 21 := (List.getElem?_eq_some_iff.mp h).1
  have hlist : kernelBootstrap = .clearTable :: picRemap ++ [.setIsr SCHEDULER_ISR_INDEX .scheduler] ++ pitInit ++
      [.rmw PIC1_DATA 0, .sti, .kbdTest true, .setIsr KEYBOARD_VECTOR .keyboard, .rmw PIC1_DATA 1] := rfl
  rw [hlist] at h
  interval_cases k <;> obtain rfl := Option.some.inj h <;> rw [Op.Placed] <;> decide

end

/-! ### What the controllers and the keyboard buffer keep -/

/-- The steps of a handler before it returns. -/
def Op.Handles : Op → Prop
  | .outb port value => (port = PIC1_COMMAND ∨ port = PIC2_COMMAND) ∧ value = PIC_EOI
  | .tick => True
  | .kbdTest drain => drain = false
  | .kbdRead drain => drain = false
  | _ => False

/-- The steps that look at the keyboard buffer. -/
def Op.Reads : Op → Prop
  | .kbdTest _ => True
  | .kbdRead _ => True
  | _ => False

def Op.isTick : Op → Bool
  | .tick => true
  | _ => false

/-- What is left of a handler: while an interrupt is in service, its end is still to be sent. -/
structure Front (p : Pics) (h : List Op) : Prop where
  slave : p.slave.Idle
  shape : h = [] ∧ p.master.Idle ∨ ∃ body b, h = body ++ [.iret b] ∧ (∀ op ∈ body, op.Handles) ∧
    (p.master.Idle ∨ ∃ i, p.master.Serves i ∧ .outb PIC1_COMMAND PIC_EOI ∈ body)

/-- **The kernel has made `k` steps of its boot code**, and a handler may have interrupted it. -/
structure Booted (s : PicConfig × PicConfig) (t : ℕ → Option Handler) (k : ℕ) (h r : List Op) (m : Machine) : Prop where
  code : m.code = h ++ r
  rest : Rest s k r
  configs : m.pics.configs = configAt s k
  table : m.table = tableAt t k
  off : k ≤ 17 → m.interrupts = false ∧ h = []
  busy : h ≠ [] → m.interrupts = false
  reset : k = 2 → m.pics.master.Idle
  front : 3 ≤ k → Front m.pics h
  quiet : k ≤ 20 → m.seen = [] ∧ ∀ op ∈ h, ¬op.Reads

/-- The books: a byte in the buffer is announced, or somebody is about to look; every byte typed is in one place; the
vectors taken are those of the timer, of the keyboard, or spurious; and each tick has come from the timer. -/
structure Books (m : Machine) : Prop where
  waits : m.obf.isSome = true → m.pics.master.irr 1 = true ∨ ∃ d, .kbdTest d ∈ m.code
  typed : m.typed = m.dropped ++ m.seen ++ (m.obf.toList ++ m.queue)
  vectors : ∀ v ∈ m.vectors, v = PIT_VECTOR_INDEX ∨ v = KEYBOARD_VECTOR ∨ v = 39
  ticks : m.ticks + m.code.countP Op.isTick = m.vectors.count PIT_VECTOR_INDEX

section

variable {s : PicConfig × PicConfig} {t : ℕ → Option Handler} {k : ℕ} {h r rest : List Op} {m : Machine} {op : Op}
  {p q : Pics}

theorem Front.congr (hf : Front p h) (hmaster : q.master.isr = p.master.isr) (hslave : q.slave.isr = p.slave.isr) :
    Front q h := by
  have hserves : ∀ i, q.master.Serves i ↔ p.master.Serves i := by
    intro i
    rw [Pic.Serves, Pic.Serves, hmaster]
  have hidle : q.master.Idle ↔ p.master.Idle := by
    rw [Pic.Idle, Pic.Idle, hmaster]
  refine ⟨?_, ?_⟩
  · rw [Pic.Idle, hslave]
    exact hf.slave
  · simp only [hidle, hserves]
    exact hf.shape

/-- Inside a handler the end of the interrupt in service is still to be sent. -/
theorem Front.body {b : List Op} {e : Bool} (hf : Front p (b ++ [.iret e])) :
    p.master.Idle ∨ ∃ i, p.master.Serves i ∧ .outb PIC1_COMMAND PIC_EOI ∈ b := by
  obtain ⟨hnil, -⟩ | ⟨body, e', heq, -, hserved⟩ := hf.shape
  · exact absurd hnil (by simp)
  · obtain ⟨rfl, -⟩ := List.append_inj' heq rfl
    exact hserved

/-- Outside a handler nothing is in service. -/
theorem Front.idle (hf : Front p []) : p.master.Idle := by
  obtain ⟨-, hidle⟩ | ⟨body, e, hnil, -⟩ := hf.shape
  · exact hidle
  · exact absurd hnil.symm (by simp)

/-- Interrupts are on outside the handlers only, and not before `start_interrupts`. -/
theorem Booted.on (hb : Booted s t k h r m) (hon : m.interrupts = true) : h = [] ∧ 18 ≤ k := by
  constructor
  · by_contra hne
    exact Bool.false_ne_true ((hb.busy hne).symm.trans hon)
  · by_contra hk
    exact Bool.false_ne_true ((hb.off (by omega)).1.symm.trans hon)

/-- A line that rises leaves the programs and what is in service alone. -/
theorem raise_frame (p : Pics) (line : ℕ) : (p.raise line).configs = p.configs ∧
    (p.raise line).master.isr = p.master.isr ∧ (p.raise line).slave.isr = p.slave.isr ∧
      (p.master.irr 1 = true → (p.raise line).master.irr 1 = true) := by
  rw [Pics.raise]
  split
  · refine ⟨rfl, rfl, rfl, fun hone => ?_⟩
    show Function.update p.master.irr line true 1 = true
    rw [Function.update_apply, hone, ite_self]
  · exact ⟨rfl, rfl, rfl, id⟩

/-- Where an event changes only what the handlers do not look at, the kernel is where it was. -/
theorem Booted.congr {m' : Machine} (hb : Booted s t k h r m) (hcode : m'.code = m.code)
    (hconfigs : m'.pics.configs = m.pics.configs) (hmaster : m'.pics.master.isr = m.pics.master.isr)
    (hslave : m'.pics.slave.isr = m.pics.slave.isr) (htable : m'.table = m.table)
    (hinterrupts : m'.interrupts = m.interrupts) (hseen : m'.seen = m.seen) : Booted s t k h r m' where
  code := hcode.trans hb.code
  rest := hb.rest
  configs := hconfigs.trans hb.configs
  table := htable.trans hb.table
  off hk := ⟨hinterrupts.trans (hb.off hk).1, (hb.off hk).2⟩
  busy hne := hinterrupts.trans (hb.busy hne)
  reset hk j := (congrFun hmaster j).trans (hb.reset hk j)
  front hk := (hb.front hk).congr hmaster hslave
  quiet hk := ⟨hseen.trans (hb.quiet hk).1, (hb.quiet hk).2⟩

/-- The end of an interrupt, at the port of either controller. -/
theorem Front.eoi {b : List Op} {e : Bool} {port : UInt16} (hf : Front p (.outb port PIC_EOI :: b ++ [.iret e]))
    (hport : port = PIC1_COMMAND ∨ port = PIC2_COMMAND) (hbody : ∀ op ∈ b, op.Handles) :
    Front (p.outb port PIC_EOI) (b ++ [.iret e]) ∧ (p.outb port PIC_EOI).master.irr = p.master.irr := by
  have hcommand : ∀ q : Pic, q.command PIC_EOI = q.eoi := fun _ => rfl
  have hserved := hf.body
  obtain rfl | rfl := hport
  · have hdone : p.master.eoi.Idle ∧ p.master.eoi.irr = p.master.irr := by
      obtain hidle | ⟨i, hi, -⟩ := hserved
      · rw [hidle.eoi]
        exact ⟨hidle, rfl⟩
      · exact ⟨hi.eoi.1, hi.eoi.2.2⟩
    have hout : p.outb PIC1_COMMAND PIC_EOI = { p with master := p.master.eoi } := rfl
    rw [hout]
    exact ⟨⟨hf.slave, .inr ⟨b, e, rfl, hbody, .inl hdone.1⟩⟩, hdone.2⟩
  · have hout : p.outb PIC2_COMMAND PIC_EOI = p := by
      have : p.outb PIC2_COMMAND PIC_EOI = { p with slave := p.slave.eoi } := rfl
      rw [this, hf.slave.eoi]
    rw [hout]
    refine ⟨⟨hf.slave, .inr ⟨b, e, rfl, hbody, ?_⟩⟩, rfl⟩
    obtain hidle | ⟨i, hi, hmem⟩ := hserved
    · exact .inl hidle
    · obtain heq | hmem := List.mem_cons.mp hmem
      · exact absurd (Op.outb.inj heq).1 (by decide)
      · exact .inr ⟨i, hi, hmem⟩

/-- **The books after a step of the code.**  A byte that `init_keyboard` drops must not have overtaken one that a
handler has seen; and a write that forgets the risen lines must leave a look at the buffer to do. -/
theorem Books.run (hs : Books m) (hcode : m.code = op :: rest) (hseen : op = .kbdRead true → m.seen = [])
    (hirr : ∀ port value, op = .outb port value →
      (m.pics.outb port value).master.irr = m.pics.master.irr ∨ .kbdTest true ∈ rest) : Books (m.run op rest) := by
  have hwaits : ∀ m' : Machine, m'.obf = m.obf → m'.pics.master.irr 1 = m.pics.master.irr 1 → m'.code = rest →
      (¬op.Reads) → m'.obf.isSome = true → m'.pics.master.irr 1 = true ∨ ∃ d, .kbdTest d ∈ m'.code := by
    intro m' hobf hirr1 hcode' hreads hsome
    rw [hobf] at hsome
    obtain hone | ⟨d, hd⟩ := hs.waits hsome
    · exact .inl (hirr1.trans hone)
    · rw [hcode, List.mem_cons] at hd
      obtain heq | hd := hd
      · exact absurd (heq ▸ trivial) hreads
      · rw [hcode']
        exact .inr ⟨d, hd⟩
  have hticks := hs.ticks
  rw [hcode, List.countP_cons] at hticks
  cases op with
  | outb port value =>
    refine ⟨fun hsome => ?_, hs.typed, hs.vectors, hticks⟩
    obtain hsame | htest := hirr port value rfl
    · exact hwaits (m.run (.outb port value) rest) rfl (congrFun hsame 1) rfl id hsome
    · exact .inr ⟨true, htest⟩
  | rmw port irq =>
    refine ⟨fun hsome => ?_, hs.typed, hs.vectors, ?_⟩
    · obtain hone | ⟨d, hd⟩ := hs.waits hsome
      · exact .inl hone
      · rw [hcode, List.mem_cons] at hd
        obtain heq | hd := hd
        · cases heq
        · exact .inr ⟨d, List.mem_cons_of_mem _ hd⟩
    · rw [Machine.run, List.countP_cons]
      exact hticks
  | clearTable => exact ⟨hwaits _ rfl rfl rfl id, hs.typed, hs.vectors, hticks⟩
  | setIsr v h => exact ⟨hwaits _ rfl rfl rfl id, hs.typed, hs.vectors, hticks⟩
  | sti => exact ⟨hwaits _ rfl rfl rfl id, hs.typed, hs.vectors, hticks⟩
  | tick =>
    refine ⟨hwaits _ rfl rfl rfl id, hs.typed, hs.vectors, ?_⟩
    show m.ticks + 1 + rest.countP Op.isTick = m.vectors.count PIT_VECTOR_INDEX
    rw [← hticks, Op.isTick, if_pos rfl]
    omega
  | kbdTest drain =>
    cases hobf : m.obf with
    | none =>
      have hrun : m.run (.kbdTest drain) rest = { m with code := rest } := by rw [Machine.run, hobf]; rfl
      rw [hrun]
      refine ⟨fun hsome => ?_, hs.typed, hs.vectors, hticks⟩
      rw [show ({ m with code := rest } : Machine).obf = none from hobf] at hsome
      cases hsome
    | some c =>
      have hrun : m.run (.kbdTest drain) rest = { m with code := .kbdRead drain :: .kbdTest drain :: rest } := by
        rw [Machine.run, hobf]; rfl
      rw [hrun]
      refine ⟨fun _ => .inr ⟨drain, List.mem_cons_of_mem _ List.mem_cons_self⟩, hs.typed, hs.vectors, ?_⟩
      rw [List.countP_cons, List.countP_cons]
      exact hticks
  | kbdRead drain =>
    refine ⟨fun hsome => absurd hsome Bool.false_ne_true, ?_, hs.vectors, hticks⟩
    cases drain with
    | true =>
      have hnil := hseen rfl
      show m.typed = (m.dropped ++ m.obf.toList) ++ m.seen ++ (Option.toList none ++ m.queue)
      rw [hs.typed, hnil]
      simp
    | false =>
      show m.typed = m.dropped ++ (m.seen ++ m.obf.toList) ++ (Option.toList none ++ m.queue)
      rw [hs.typed]
      simp
  | iret b => exact ⟨hwaits _ rfl rfl rfl id, hs.typed, hs.vectors, hticks⟩

/-- A write to a data port leaves the lines alone. -/
theorem outb_frame {port : UInt16} (hmaster : port ≠ PIC1_COMMAND) (hslave : port ≠ PIC2_COMMAND) (value : UInt8)
    (p : Pics) : (p.outb port value).master.isr = p.master.isr ∧ (p.outb port value).slave.isr = p.slave.isr ∧
      (p.outb port value).master.irr = p.master.irr := by
  rw [Pics.outb, if_neg hmaster, if_neg hslave]
  split
  · exact ⟨rfl, rfl, rfl⟩
  · split <;> exact ⟨rfl, rfl, rfl⟩

/-- A step inside a handler stays inside it. -/
theorem Booted.inside {m' : Machine} {h' : List Op} (hb : Booted s t k h r m) (hne : h ≠ []) (hcode : m'.code = h' ++ r)
    (hconfigs : m'.pics.configs = m.pics.configs) (htable : m'.table = m.table)
    (hinterrupts : m'.interrupts = m.interrupts) (hfront : Front m'.pics h')
    (hquiet : k ≤ 20 → m'.seen = [] ∧ ∀ op ∈ h', ¬op.Reads) : Booted s t k h' r m' where
  code := hcode
  rest := hb.rest
  configs := hconfigs.trans hb.configs
  table := htable.trans hb.table
  off hk := absurd (hb.off hk).2 hne
  busy _ := hinterrupts.trans (hb.busy hne)
  reset hk := absurd (hb.off (by omega)).2 hne
  front _ := hfront
  quiet := hquiet

/-- The step of a handler that is not its return. -/
theorem Booted.handle {b : List Op} {e : Bool} (hb : Booted s t k (op :: b ++ [.iret e]) r m) (hs : Books m)
    (hop : op.Handles) (hbody : ∀ op ∈ b, op.Handles) :
    (∃ h', Booted s t k h' r (m.run op (b ++ [.iret e] ++ r))) ∧ Books (m.run op (b ++ [.iret e] ++ r)) := by
  have hne : op :: b ++ [.iret e] ≠ [] := List.cons_ne_nil _ _
  have hlate : ¬k ≤ 17 := fun hk => hne (hb.off hk).2
  have hfront := hb.front (by omega)
  have hcode : m.code = op :: (b ++ [.iret e] ++ r) := hb.code
  -- a step that the controllers do not see
  have hplain : (∀ port value, op ≠ .outb port value) → Front m.pics (b ++ [.iret e]) := by
    intro hother
    refine ⟨hfront.slave, .inr ⟨b, e, rfl, hbody, ?_⟩⟩
    obtain hidle | ⟨i, hi, hmem⟩ := hfront.body
    · exact .inl hidle
    · obtain heq | hmem := List.mem_cons.mp hmem
      · exact absurd heq.symm (hother _ _)
      · exact .inr ⟨i, hi, hmem⟩
  have hquiet : k ≤ 20 → m.seen = [] ∧ ∀ op ∈ b ++ [.iret e], ¬op.Reads := fun hk =>
    ⟨(hb.quiet hk).1, fun x hx => (hb.quiet hk).2 x (List.mem_cons_of_mem _ hx)⟩
  -- the keyboard has no handler before its line is let through
  have hreads : op.Reads → ¬k ≤ 20 := fun hr hk => (hb.quiet hk).2 op List.mem_cons_self hr
  have hbooks : (∀ port value, op ≠ .outb port value) → op ≠ .kbdRead true → Books (m.run op (b ++ [.iret e] ++ r)) :=
    fun hother hread => hs.run hcode (fun heq => absurd heq hread) fun port value heq => absurd heq (hother port value)
  cases op with
  | outb port value =>
    obtain ⟨hport, rfl⟩ := hop
    obtain ⟨hf, hirr⟩ := hfront.eoi hport hbody
    have hconfigs : (m.pics.outb port PIC_EOI).configs = m.pics.configs := by
      rw [configs_outb]
      obtain rfl | rfl := hport <;> rfl
    refine ⟨⟨b ++ [Op.iret e], hb.inside hne rfl hconfigs rfl rfl hf hquiet⟩,
      hs.run hcode (by intro heq; cases heq) fun port' value heq => ?_⟩
    obtain ⟨rfl, rfl⟩ := Op.outb.inj heq
    exact .inl hirr
  | tick =>
    have hother : ∀ port value, Op.tick ≠ .outb port value := by
      intro port value heq
      cases heq
    exact ⟨⟨b ++ [Op.iret e], hb.inside hne rfl rfl rfl rfl (hplain hother) hquiet⟩,
      hbooks hother (by intro heq; cases heq)⟩
  | kbdTest drain =>
    obtain rfl : drain = false := hop
    have hother : ∀ port value, Op.kbdTest false ≠ .outb port value := by
      intro port value heq
      cases heq
    refine ⟨?_, hbooks hother (by intro heq; cases heq)⟩
    cases hobf : m.obf with
    | none =>
      have hrun : m.run (.kbdTest false) (b ++ [.iret e] ++ r) = { m with code := b ++ [.iret e] ++ r } := by
        rw [Machine.run, hobf]; rfl
      rw [hrun]
      exact ⟨b ++ [Op.iret e], hb.inside hne rfl rfl rfl rfl (hplain hother) hquiet⟩
    | some c =>
      have hrun : m.run (.kbdTest false) (b ++ [.iret e] ++ r) =
          { m with code := .kbdRead false :: .kbdTest false :: (b ++ [.iret e] ++ r) } := by
        rw [Machine.run, hobf]; rfl
      rw [hrun]
      have hall : ∀ op ∈ Op.kbdRead false :: .kbdTest false :: b, op.Handles := by
        simp only [List.forall_mem_cons]
        exact ⟨rfl, rfl, hbody⟩
      refine ⟨.kbdRead false :: .kbdTest false :: b ++ [.iret e], hb.inside hne rfl rfl rfl rfl
        ⟨hfront.slave, .inr ⟨_, e, rfl, hall, ?_⟩⟩ fun hk => absurd hk (hreads trivial)⟩
      obtain hidle | ⟨i, hi, hmem⟩ := (hplain hother).body
      · exact .inl hidle
      · exact .inr ⟨i, hi, List.mem_cons_of_mem _ (List.mem_cons_of_mem _ hmem)⟩
  | kbdRead drain =>
    obtain rfl : drain = false := hop
    have hother : ∀ port value, Op.kbdRead false ≠ .outb port value := by
      intro port value heq
      cases heq
    exact ⟨⟨b ++ [Op.iret e], hb.inside hne rfl rfl rfl rfl (hplain hother) fun hk => absurd hk (hreads trivial)⟩,
      hbooks hother (by intro heq; cases heq)⟩
  | rmw port irq => exact hop.elim
  | clearTable => exact hop.elim
  | setIsr v h => exact hop.elim
  | sti => exact hop.elim
  | iret b => exact hop.elim

/-- The return from a handler. -/
theorem Booted.return {e : Bool} (hb : Booted s t k [.iret e] r m) (hs : Books m) :
    Booted s t k [] r (m.run (.iret e) r) ∧ Books (m.run (.iret e) r) := by
  have hlate : ¬k ≤ 17 := fun hk => List.cons_ne_nil _ _ (hb.off hk).2
  have hfront := hb.front (by omega)
  have hidle : m.pics.master.Idle := by
    obtain hidle | ⟨i, -, hmem⟩ := Front.body (b := []) hfront
    · exact hidle
    · exact absurd hmem List.not_mem_nil
  refine ⟨⟨rfl, hb.rest, hb.configs, hb.table, fun hk => absurd hk hlate, fun hne => absurd rfl hne,
    fun hk => absurd hk (by omega), fun _ => ⟨hfront.slave, .inl ⟨rfl, hidle⟩⟩, fun hk => ⟨(hb.quiet hk).1, ?_⟩⟩,
    hs.run hb.code (by intro heq; cases heq) (by intro port value heq; cases heq)⟩
  exact fun op hop => absurd hop List.not_mem_nil

/-- A step of the boot code that the controllers do not see. -/
theorem Booted.next {m' : Machine} {k' : ℕ} {r' : List Op} (hb : Booted s t k [] r m) (hle : k ≤ k')
    (hstart : k' ≤ 2 → k' ≤ 1) (hlate : 3 ≤ k' → 3 ≤ k) (hcode : m'.code = r') (hrest : Rest s k' r')
    (hpics : m'.pics = m.pics)
    (hconfigs : configAt s k' = configAt s k) (htable : m'.table = tableAt t k')
    (hoff : k' ≤ 17 → m'.interrupts = m.interrupts) (hseen : m'.seen = m.seen) : Booted s t k' [] r' m' where
  code := hcode
  rest := hrest
  configs := by rw [hpics, hb.configs, hconfigs]
  table := htable
  off hk := ⟨(hoff hk).trans (hb.off (hle.trans hk)).1, rfl⟩
  busy hne := absurd rfl hne
  reset hk := absurd (hstart hk.le) (by omega)
  front hk := by
    rw [hpics]
    exact hb.front (hlate hk)
  quiet hk := ⟨hseen.trans (hb.quiet (hle.trans hk)).1, fun op hop => absurd hop List.not_mem_nil⟩

/-- A look at the keyboard buffer is left in the boot code. -/
theorem kbdTest_mem (hk : k ≤ 18) : .kbdTest true ∈ kernelBootstrap.drop k := by
  have hlast : (kernelBootstrap.drop k).drop (18 - k) = kernelBootstrap.drop 18 := by
    rw [List.drop_drop, Nat.add_sub_cancel' hk]
  have hmem : .kbdTest true ∈ kernelBootstrap.drop 18 := List.mem_cons_self
  exact List.mem_of_mem_drop (hlast ▸ hmem)

/-- **A step of the boot code.** -/
theorem Booted.boot (hb : Booted s t k [] (op :: rest) m) (hs : Books m) :
    (∃ k' r', Booted s t k' [] r' (m.run op rest)) ∧ Books (m.run op rest) := by
  have hcode : m.code = op :: rest := hb.code
  have hr := hb.rest
  generalize hcons : op :: rest = r at hr
  cases hr with
  | next k =>
    have hget : kernelBootstrap[k]? = some op := by rw [← List.head?_drop, ← hcons]; rfl
    have hrest : rest = kernelBootstrap.drop (k + 1) := by rw [← List.tail_drop, ← hcons]; rfl
    have hplace := placed hget
    have hnext := Rest.next (s := s) (k + 1)
    rw [← hrest] at hnext
    have hconfig := configAt_succ (s := s) hget
    have htable := tableAt_succ (t := t) hget
    rw [← hb.table] at htable
    cases op with
    | outb port value =>
      obtain ⟨hk, hwhere⟩ := hplace
      have hconfigs : (m.pics.outb port value).configs = configAt s (k + 1) := by
        rw [configs_outb, hb.configs, hconfig]
        rfl
      refine ⟨⟨k + 1, rest, rfl, hnext, hconfigs, htable.symm, fun _ => ⟨(hb.off (by omega)).1, rfl⟩,
        fun hne => absurd rfl hne, fun hk2 => ?_, fun hk3 => ?_, fun _ => ⟨(hb.quiet (by omega)).1, ?_⟩⟩, ?_⟩
      · obtain ⟨-, rfl, rfl⟩ | ⟨hk', -⟩ | ⟨-, -, hk1, -⟩ := hwhere
        · exact fun _ => rfl
        · omega
        · omega
      · obtain ⟨hk', -⟩ | ⟨hk', rfl, rfl⟩ | ⟨hmaster, hslave, -, hk'⟩ := hwhere
        · omega
        · exact ⟨fun _ => rfl, .inl ⟨rfl, hb.reset hk'⟩⟩
        · obtain ⟨hm, hl, -⟩ := outb_frame hmaster hslave value m.pics
          exact (hb.front (by omega)).congr hm hl
      · exact fun op hop => absurd hop List.not_mem_nil
      · refine hs.run hcode (by intro heq; cases heq) fun _ _ _ => .inr ?_
        rw [hrest]
        exact kbdTest_mem (by omega)
    | rmw port irq =>
      obtain ⟨hk, -⟩ := hplace
      have hwrite := Rest.write (s := s) hget
      rw [← hrest, ← hb.configs] at hwrite
      refine ⟨⟨k, _, hb.next le_rfl (by omega) id rfl hwrite rfl rfl hb.table (fun _ => rfl) rfl⟩,
        hs.run hcode (by intro heq; cases heq) (by intro _ _ heq; cases heq)⟩
    | clearTable =>
      obtain rfl : k = 0 := hplace
      exact ⟨⟨1, rest, hb.next (by decide) (by decide) (by decide) rfl hnext rfl hconfig htable.symm (fun _ => rfl)
        rfl⟩, hs.run hcode (by intro heq; cases heq) (by intro _ _ heq; cases heq)⟩
    | setIsr v h =>
      have hlate : 3 ≤ k := by
        obtain rfl | rfl | rfl := hplace <;> decide
      exact ⟨⟨k + 1, rest, hb.next (by omega) (by omega) (fun _ => hlate) rfl hnext rfl hconfig htable.symm
        (fun _ => rfl) rfl⟩, hs.run hcode (by intro heq; cases heq) (by intro _ _ heq; cases heq)⟩
    | sti =>
      obtain rfl : k = 17 := hplace
      exact ⟨⟨18, rest, hb.next (by decide) (by decide) (by decide) rfl hnext rfl hconfig htable.symm
        (fun hk => absurd hk (by decide)) rfl⟩, hs.run hcode (by intro heq; cases heq) (by intro _ _ heq; cases heq)⟩
    | kbdTest drain =>
      obtain ⟨rfl, rfl⟩ := hplace
      refine ⟨?_, hs.run hcode (by intro heq; cases heq) (by intro _ _ heq; cases heq)⟩
      cases hobf : m.obf with
      | none =>
        have hrun : m.run (.kbdTest true) rest = { m with code := rest } := by rw [Machine.run, hobf]; rfl
        rw [hrun]
        exact ⟨19, rest, hb.next (by decide) (by decide) (by decide) rfl hnext rfl hconfig htable.symm (fun _ => rfl)
          rfl⟩
      | some c =>
        have hrun : m.run (.kbdTest true) rest = { m with code := .kbdRead true :: .kbdTest true :: rest } := by
          rw [Machine.run, hobf]; rfl
        rw [hrun, hcons]
        exact ⟨18, _, hb.next le_rfl (by decide) id rfl .read rfl rfl hb.table (fun _ => rfl) rfl⟩
    | tick => exact hplace.elim
    | kbdRead drain => exact hplace.elim
    | iret e => exact hplace.elim
  | @write _ port irq hget =>
    obtain ⟨rfl, rfl⟩ := List.cons.inj hcons
    obtain ⟨hk, rfl⟩ := placed hget
    obtain ⟨hm, hl, hirr⟩ := @outb_frame PIC1_DATA (by decide) (by decide)
      (unmasked PIC1_DATA irq (configAt s k)) m.pics
    have hconfigs : (m.pics.outb PIC1_DATA (unmasked PIC1_DATA irq (configAt s k))).configs = configAt s (k + 1) := by
      rw [configs_outb, hb.configs, configAt_succ hget]
      rfl
    have htable : m.table = tableAt t (k + 1) := hb.table.trans (tableAt_succ hget).symm
    refine ⟨⟨k + 1, _, rfl, .next (k + 1), hconfigs, htable, fun hk' => ⟨(hb.off (by omega)).1, rfl⟩,
      fun hne => absurd rfl hne, fun hk' => absurd hk' (by omega), fun _ => (hb.front (by omega)).congr hm hl,
      fun hk' => ⟨(hb.quiet (by omega)).1, fun op hop => absurd hop List.not_mem_nil⟩⟩,
      hs.run hcode (by intro heq; cases heq) fun port' value heq => ?_⟩
    obtain ⟨rfl, rfl⟩ := Op.outb.inj heq
    exact .inl hirr
  | read =>
    obtain ⟨rfl, rfl⟩ := List.cons.inj hcons
    exact ⟨⟨18, _, hb.next le_rfl (by decide) id rfl (.next 18) rfl rfl hb.table (fun _ => rfl) rfl⟩,
      hs.run hcode (fun _ => (hb.quiet (by decide)).1) (by intro _ _ heq; cases heq)⟩

/-- The code of a handler with the end of interrupt that `isr_common_entry` adds. -/
def Handler.whole : Handler → List Op
  | .pit => [.tick, .outb PIC2_COMMAND PIC_EOI, .outb PIC1_COMMAND PIC_EOI, .outb PIC2_COMMAND PIC_EOI,
      .outb PIC1_COMMAND PIC_EOI]
  | .keyboard => [.kbdTest false, .outb PIC1_COMMAND PIC_EOI, .outb PIC2_COMMAND PIC_EOI, .outb PIC1_COMMAND PIC_EOI]
  | .scheduler => [.outb PIC2_COMMAND PIC_EOI, .outb PIC1_COMMAND PIC_EOI]

theorem handler_code (h : Handler) : h.code ++ picSendEOI 15 = h.whole := by
  cases h <;> rfl

/-- A handler sends the end of its interrupt before it returns. -/
theorem isrCommonEntry_handles (table : ℕ → Option Handler) (v : ℕ) :
    (∀ op ∈ isrCommonEntry table v, op.Handles) ∧
      ((table v).isSome = true → .outb PIC1_COMMAND PIC_EOI ∈ isrCommonEntry table v) := by
  have hone : Op.Handles (.outb PIC1_COMMAND PIC_EOI) := ⟨.inl rfl, rfl⟩
  have htwo : Op.Handles (.outb PIC2_COMMAND PIC_EOI) := ⟨.inr rfl, rfl⟩
  rw [isrCommonEntry]
  cases table v with
  | none => exact ⟨fun op hop => absurd hop List.not_mem_nil, fun h => absurd h Bool.false_ne_true⟩
  | some h =>
    refine ⟨?_, fun _ => List.mem_append_right _ (by simp [picSendEOI])⟩
    dsimp only
    rw [handler_code]
    have hnil : ∀ op ∈ ([] : List Op), op.Handles := fun op hop => absurd hop List.not_mem_nil
    cases h with
    | pit =>
      simp only [Handler.whole, List.forall_mem_cons]
      exact ⟨trivial, htwo, hone, htwo, hone, hnil⟩
    | keyboard =>
      simp only [Handler.whole, List.forall_mem_cons]
      exact ⟨rfl, hone, htwo, hone, hnil⟩
    | scheduler =>
      simp only [Handler.whole, List.forall_mem_cons]
      exact ⟨htwo, hone, hnil⟩

/-- Only the handler of the keyboard looks at its buffer. -/
theorem isrCommonEntry_reads {table : ℕ → Option Handler} {v : ℕ} (hv : table v ≠ some .keyboard) :
    ∀ op ∈ isrCommonEntry table v, ¬op.Reads := by
  rw [isrCommonEntry]
  cases hh : table v with
  | none => exact fun op hop => absurd hop List.not_mem_nil
  | some h =>
    dsimp only
    rw [handler_code]
    cases h with
    | keyboard => exact absurd hh hv
    | pit =>
      simp only [Handler.whole, List.forall_mem_cons]
      exact ⟨id, id, id, id, id, fun op hop => absurd hop List.not_mem_nil⟩
    | scheduler =>
      simp only [Handler.whole, List.forall_mem_cons]
      exact ⟨id, id, fun op hop => absurd hop List.not_mem_nil⟩

/-- The keyboard is handled at its own vector. -/
theorem tableAt_keyboard {v : ℕ} (hk : 18 ≤ k) (h : tableAt t k v = some .keyboard) : v = KEYBOARD_VECTOR := by
  rw [tableAt_late hk] at h
  split at h
  · cases h
  · split at h
    · cases h
    · split at h
      · rename_i hv
        exact hv.1
      · cases h

/-- A handler is entered. -/
theorem Booted.enter {v : ℕ} {vs : List ℕ} (hb : Booted s t k [] r m) (hk : 18 ≤ k)
    (hconfigs : q.configs = m.pics.configs) (hslave : q.slave.Idle)
    (hmaster : q.master.Idle ∨ (m.table v).isSome = true ∧ ∃ i, q.master.Serves i)
    (hv : k ≤ 20 → v ≠ KEYBOARD_VECTOR) :
    ∃ h', Booted s t k h' r (({ m with pics := q, vectors := vs } : Machine).enter v) := by
  obtain ⟨hhandles, hends⟩ := isrCommonEntry_handles m.table v
  refine ⟨isrCommonEntry m.table v ++ [Op.iret m.interrupts], ?_, hb.rest, hconfigs.trans hb.configs, hb.table,
    fun hk' => absurd hk' (by omega), fun _ => rfl, fun hk' => absurd hk' (by omega), fun _ => ⟨hslave, .inr
      ⟨_, m.interrupts, rfl, hhandles, ?_⟩⟩, fun hk' => ⟨(hb.quiet hk').1, fun op hop => ?_⟩⟩
  · rw [List.append_assoc]
    show isrCommonEntry m.table v ++ .iret m.interrupts :: m.code = _
    rw [hb.code]
    rfl
  · obtain hidle | ⟨hsome, i, hi⟩ := hmaster
    · exact .inl hidle
    · exact .inr ⟨i, hi, hends hsome⟩
  · obtain hop | hop := List.mem_append.mp hop
    · have hnot : m.table v ≠ some .keyboard := fun heq => hv hk' (tableAt_keyboard hk (hb.table ▸ heq))
      exact isrCommonEntry_reads hnot op hop
    · obtain rfl := List.mem_singleton.mp hop
      exact id

/-- **What the processor may be given**: the timer, and the keyboard once its line is let through. -/
theorem acknowledge_spec {v : ℕ} (hconfigs : p.configs = configAt s k) (hk : 18 ≤ k)
    (hack : p.acknowledge = some (v, q)) :
    ∃ i, (i = 0 ∨ i = 1 ∧ 21 ≤ k) ∧ v = 32 + i ∧ q = { p with master := p.master.acknowledge i } := by
  rw [configAt_late hk] at hconfigs
  obtain ⟨hm, hl⟩ := Prod.mk.inj hconfigs
  have hslave : p.slave.request = none := by
    apply Pic.request_masked
    rw [hl]
    decide
  rw [Pics.acknowledge] at hack
  cases hreq : p.wired.request with
  | none =>
    rw [hreq] at hack
    cases hack
  | some i =>
    rw [hreq] at hack
    obtain ⟨hi, -, hmask⟩ := Pic.request_some hreq
    rw [show p.wired.config = p.master.config from rfl, hm] at hmask
    have hline : i = 0 ∨ i = 1 ∧ 21 ≤ k := by
      have hearly : ∀ i < 8, bit 0xFE i = false → i = 0 := by decide
      have hopen : ∀ i < 8, bit 0xFC i = false → i = 0 ∨ i = 1 := by decide
      dsimp only at hmask
      split at hmask
      · exact .inl (hearly i hi hmask)
      · exact (hopen i hi hmask).imp_right fun h => ⟨h, by omega⟩
    dsimp only at hack
    rw [if_neg (by omega)] at hack
    obtain ⟨rfl, rfl⟩ := Prod.mk.inj (Option.some.inj hack)
    refine ⟨i, hline, ?_, rfl⟩
    rw [hm]
    rfl

/-- The timer and the keyboard have their handlers before their lines are let through. -/
theorem Booted.table_line {i : ℕ} (hb : Booted s t k h r m) (hk : 18 ≤ k) (hi : i = 0 ∨ i = 1 ∧ 21 ≤ k) :
    m.table (32 + i) = some (if i = 0 then .pit else .keyboard) := by
  rw [hb.table, tableAt_late hk]
  obtain rfl | ⟨rfl, hk21⟩ := hi
  · rfl
  · have hboth : 32 + 1 = KEYBOARD_VECTOR ∧ 20 ≤ k := ⟨rfl, by omega⟩
    rw [if_neg (by decide), if_neg (by decide), if_pos hboth, if_neg (by decide)]

/-- An interrupt is taken. -/
theorem Booted.deliver {v : ℕ} (hb : Booted s t k h r m) (hs : Books m) (hon : m.interrupts = true)
    (hack : m.pics.acknowledge = some (v, q)) :
    (∃ h', Booted s t k h' r (({ m with pics := q, vectors := v :: m.vectors } : Machine).enter v)) ∧
      Books (({ m with pics := q, vectors := v :: m.vectors } : Machine).enter v) := by
  obtain ⟨rfl, hk⟩ := hb.on hon
  have hfront := hb.front (by omega)
  have hidle := hfront.idle
  obtain ⟨i, hi, rfl, rfl⟩ := acknowledge_spec hb.configs hk hack
  have htable := hb.table_line hk hi
  have hsome : (m.table (32 + i)).isSome = true := by rw [htable]; rfl
  refine ⟨hb.enter hk rfl hfront.slave (.inr ⟨hsome, i, hidle.acknowledge (by omega)⟩) ?_, ?_, hs.typed, ?_, ?_⟩
  · intro hk20
    rw [KEYBOARD_VECTOR]
    omega
  · intro hbuf
    have hmem : ∀ {op}, op ∈ isrCommonEntry m.table (32 + i) ∨ op ∈ m.code →
        op ∈ isrCommonEntry m.table (32 + i) ++ .iret m.interrupts :: m.code := by
      intro op hop
      obtain hop | hop := hop
      · exact List.mem_append_left _ hop
      · exact List.mem_append_right _ (List.mem_cons_of_mem _ hop)
    obtain rfl | ⟨rfl, hk21⟩ := hi
    · obtain hone | ⟨d, hd⟩ := hs.waits hbuf
      · refine .inl ?_
        show Function.update m.pics.master.irr 0 false 1 = true
        rw [Function.update_of_ne (by decide), hone]
      · exact .inr ⟨d, hmem (.inr hd)⟩
    · refine .inr ⟨false, hmem (.inl ?_)⟩
      rw [isrCommonEntry, htable]
      exact List.mem_cons_self
  · intro w hw
    obtain rfl | hw := List.mem_cons.mp hw
    · obtain rfl | ⟨rfl, -⟩ := hi
      · exact .inl rfl
      · exact .inr (.inl rfl)
    · exact hs.vectors w hw
  · have hticks := hs.ticks
    show m.ticks + (isrCommonEntry m.table (32 + i) ++ .iret m.interrupts :: m.code).countP Op.isTick =
      ((32 + i) :: m.vectors).count PIT_VECTOR_INDEX
    rw [isrCommonEntry, htable, List.countP_append, List.countP_cons, List.count_cons]
    dsimp only
    rw [handler_code]
    obtain rfl | ⟨rfl, -⟩ := hi
    · have hone : Handler.pit.whole.countP Op.isTick = 1 := rfl
      have hno : (Op.iret m.interrupts).isTick = false := rfl
      simp only [if_true, hone, hno, Bool.false_eq_true, if_false]
      rw [if_pos (by decide)]
      omega
    · have hzero : Handler.keyboard.whole.countP Op.isTick = 0 := rfl
      have hno : (Op.iret m.interrupts).isTick = false := rfl
      simp only [Nat.one_ne_zero, if_false, hzero, hno, Bool.false_eq_true]
      rw [if_neg (by decide)]
      omega

/-- The kernel has booted, and a handler may have interrupted it; the books are in order. -/
def Ordered (s : PicConfig × PicConfig) (t : ℕ → Option Handler) (m : Machine) : Prop :=
  (∃ k h r, Booted s t k h r m) ∧ Books m

/-- A vector that is not one of a line only runs its handler. -/
theorem Ordered.enter {v : ℕ} {vs : List ℕ} (hb : Booted s t k [] r m) (hk : 18 ≤ k) (hs : Books m)
    (hv : v = SCHEDULER_ISR_INDEX ∧ vs = m.vectors ∨ v = 39 ∧ vs = v :: m.vectors) :
    Ordered s t (({ m with vectors := vs } : Machine).enter v) := by
  have hfront := hb.front (by omega)
  have hidle := hfront.idle
  have hne : v ≠ KEYBOARD_VECTOR ∧ v ≠ PIT_VECTOR_INDEX := by
    obtain ⟨rfl, -⟩ | ⟨rfl, -⟩ := hv <;> decide
  have hentered : ∃ h', Booted s t k h' r (({ m with vectors := vs } : Machine).enter v) :=
    hb.enter hk rfl hfront.slave (.inl hidle) fun _ => hne.1
  obtain ⟨h', hb'⟩ := hentered
  have hnot : m.table v = some .scheduler ∨ m.table v = none := by
    rw [hb.table, tableAt_late hk, if_neg hne.2, if_neg fun hboth : v = KEYBOARD_VECTOR ∧ 20 ≤ k => hne.1 hboth.1]
    split
    · exact .inl rfl
    · exact .inr rfl
  have hcount : (isrCommonEntry m.table v).countP Op.isTick = 0 := by
    rw [isrCommonEntry]
    obtain heq | heq := hnot <;> rw [heq] <;> rfl
  refine ⟨⟨k, h', r, hb'⟩, fun hbuf => ?_, hs.typed, fun w hw => ?_, ?_⟩
  · obtain hone | ⟨d, hd⟩ := hs.waits hbuf
    · exact .inl hone
    · exact .inr ⟨d, List.mem_append_right _ (List.mem_cons_of_mem _ hd)⟩
  · obtain ⟨-, rfl⟩ | ⟨hv39, rfl⟩ := hv
    · exact hs.vectors w hw
    · obtain rfl | hw := List.mem_cons.mp hw
      · exact .inr (.inr hv39)
      · exact hs.vectors w hw
  · show m.ticks + (isrCommonEntry m.table v ++ .iret m.interrupts :: m.code).countP Op.isTick =
      vs.count PIT_VECTOR_INDEX
    have hvs : vs.count PIT_VECTOR_INDEX = m.vectors.count PIT_VECTOR_INDEX := by
      obtain ⟨-, rfl⟩ | ⟨-, rfl⟩ := hv
      · rfl
      · exact List.count_cons_of_ne hne.2
    have hcons : (Op.iret m.interrupts :: m.code).countP Op.isTick = m.code.countP Op.isTick := rfl
    rw [hvs, List.countP_append, hcount, hcons, Nat.zero_add]
    exact hs.ticks

/-- **A step of the code**, of the kernel or of a handler. -/
theorem Ordered.run (hm : Ordered s t m) (hcode : m.code = op :: rest) : Ordered s t (m.run op rest) := by
  obtain ⟨⟨k, h, r, hb⟩, hs⟩ := hm
  cases h with
  | nil =>
    have hr : r = op :: rest := hb.code.symm.trans hcode
    rw [hr] at hb
    obtain ⟨⟨k', r', hb'⟩, hs'⟩ := hb.boot hs
    exact ⟨⟨k', [], r', hb'⟩, hs'⟩
  | cons x h =>
    have hlate : ¬k ≤ 17 := fun hk => List.cons_ne_nil _ _ (hb.off hk).2
    obtain ⟨rfl, rfl⟩ := List.cons.inj (hb.code.symm.trans hcode)
    obtain ⟨hnil, -⟩ | ⟨body, e, heq, hhandles, -⟩ := (hb.front (by omega)).shape
    · cases hnil
    · cases body with
      | nil =>
        obtain ⟨rfl, rfl⟩ := List.cons.inj heq
        obtain ⟨hb', hs'⟩ := hb.return hs
        exact ⟨⟨k, [], r, hb'⟩, hs'⟩
      | cons y body =>
        obtain ⟨rfl, rfl⟩ := List.cons.inj heq
        rw [List.forall_mem_cons] at hhandles
        obtain ⟨⟨h', hb'⟩, hs'⟩ := hb.handle hs hhandles.1 hhandles.2
        exact ⟨⟨k, h', r, hb'⟩, hs'⟩

/-- Code that has come to its end is that of the whole boot. -/
theorem Booted.idle (hb : Booted s t k h r m) (hcode : m.code = []) : h = [] ∧ r = [] ∧ 21 ≤ k := by
  obtain ⟨rfl, rfl⟩ := List.append_eq_nil_iff.mp (hb.code.symm.trans hcode)
  refine ⟨rfl, rfl, ?_⟩
  have hr := hb.rest
  generalize hnil : ([] : List Op) = r at hr
  cases hr with
  | next k => exact List.drop_eq_nil_iff.mp hnil.symm
  | write hget => cases hnil
  | read => cases hnil

/-- **One event** keeps the order. -/
theorem Ordered.step {m' : Machine} {e : Event} (hm : Ordered s t m) (hstep : m.exec e = some m') : Ordered s t m' := by
  obtain ⟨⟨k, h, r, hb⟩, hs⟩ := hm
  cases e with
  | raise line =>
    obtain ⟨-, rfl⟩ := Machine.of_guard hstep
    obtain ⟨hconfigs, hmaster, hslave, hone⟩ := raise_frame m.pics line
    exact ⟨⟨k, h, r, hb.congr rfl hconfigs hmaster hslave rfl rfl rfl⟩,
      fun hbuf => (hs.waits hbuf).imp_left hone, hs.typed, hs.vectors, hs.ticks⟩
  | key c =>
    obtain rfl := Option.some.inj hstep
    refine ⟨⟨k, h, r, hb.congr rfl rfl rfl rfl rfl rfl rfl⟩, hs.waits, ?_, hs.vectors, hs.ticks⟩
    show m.typed ++ [c] = m.dropped ++ m.seen ++ (m.obf.toList ++ (m.queue ++ [c]))
    rw [hs.typed]
    simp
  | load =>
    rw [Machine.exec] at hstep
    split at hstep
    · rename_i c queue hobf hqueue
      obtain rfl := Option.some.inj hstep
      obtain ⟨hconfigs, hmaster, hslave, -⟩ := raise_frame m.pics 1
      refine ⟨⟨k, h, r, hb.congr rfl hconfigs hmaster hslave rfl rfl rfl⟩, fun _ => .inl ?_, ?_, hs.vectors, hs.ticks⟩
      · exact Function.update_self 1 true m.pics.master.irr
      · have htyped := hs.typed
        rw [hobf, hqueue] at htyped
        exact htyped
    · cases hstep
  | deliver =>
    obtain ⟨hon, hstep⟩ := Option.ite_none_right_eq_some.mp hstep
    obtain ⟨⟨v, q⟩, hack, rfl⟩ := Option.map_eq_some_iff.mp hstep
    obtain ⟨⟨h', hb'⟩, hs'⟩ := hb.deliver hs hon hack
    exact ⟨⟨k, h', r, hb'⟩, hs'⟩
  | spurious =>
    obtain ⟨hon, rfl⟩ := Machine.of_guard hstep
    obtain ⟨rfl, hk⟩ := hb.on hon
    have hbase : m.pics.master.config.base.toNat + 7 = 39 := by
      have hconfigs := hb.configs
      rw [configAt_late hk] at hconfigs
      rw [(Prod.mk.inj hconfigs).1]
      rfl
    rw [hbase]
    exact Ordered.enter hb hk hs (.inr ⟨rfl, rfl⟩)
  | step =>
    rw [Machine.exec] at hstep
    split at hstep
    · cases hstep
    · rename_i op rest hcode
      obtain rfl := Option.some.inj hstep
      exact Ordered.run ⟨⟨k, h, r, hb⟩, hs⟩ hcode
  | cli =>
    obtain ⟨hcode, rfl⟩ := Machine.of_guard hstep
    obtain ⟨rfl, rfl, hk⟩ := hb.idle hcode
    exact ⟨⟨k, [], [], hb.code, hb.rest, hb.configs, hb.table, fun hk' => absurd hk' (by omega), fun _ => rfl,
      hb.reset, hb.front, hb.quiet⟩, hs.waits, hs.typed, hs.vectors, hs.ticks⟩
  | sti =>
    obtain ⟨hcode, rfl⟩ := Machine.of_guard hstep
    obtain ⟨rfl, rfl, hk⟩ := hb.idle hcode
    exact ⟨⟨k, [], [], hb.code, hb.rest, hb.configs, hb.table, fun hk' => absurd hk' (by omega),
      fun hne => absurd rfl hne, hb.reset, hb.front, hb.quiet⟩, hs.waits, hs.typed, hs.vectors, hs.ticks⟩
  | yield =>
    obtain ⟨hcode, rfl⟩ := Machine.of_guard hstep
    obtain ⟨rfl, rfl, hk⟩ := hb.idle hcode
    exact Ordered.enter hb (by omega) hs (.inl ⟨rfl, rfl⟩)

/-- The machine is in order when the kernel starts. -/
theorem ordered_boot (pics : Pics) (queue : List UInt8) (obf : Option UInt8) (table : ℕ → Option Handler) :
    Ordered pics.configs table (Machine.boot pics queue obf table) := by
  refine ⟨⟨0, [], kernelBootstrap, rfl, .next 0, rfl, rfl, fun _ => ⟨rfl, rfl⟩, fun hne => absurd rfl hne,
    fun hk => absurd hk (by decide), fun hk => absurd hk (by decide), fun _ => ⟨rfl, ?_⟩⟩, ?_, rfl, ?_, rfl⟩
  · exact fun op hop => absurd hop List.not_mem_nil
  · exact fun _ => .inr ⟨true, kbdTest_mem (k := 0) (by decide)⟩
  · exact fun v hv => absurd hv List.not_mem_nil

/-- A byte in the buffer makes the controllers ask, once the kernel waits with interrupts on. -/
theorem Ordered.asks (hm : Ordered s t m) (hcode : m.code = []) (hbuf : m.obf.isSome = true) :
    (m.pics.acknowledge).isSome = true := by
  obtain ⟨⟨k, h, r, hb⟩, hs⟩ := hm
  obtain ⟨rfl, rfl, hk⟩ := hb.idle hcode
  have hconfigs := hb.configs
  rw [configAt_late (by omega), if_neg (by omega)] at hconfigs
  have hm := (Prod.mk.inj hconfigs).1
  have hfront := hb.front (by omega)
  have hidle : m.pics.wired.Idle := hfront.idle
  have hone : m.pics.master.irr 1 = true := by
    obtain hone | ⟨d, hd⟩ := hs.waits hbuf
    · exact hone
    · rw [hcode] at hd
      exact absurd hd List.not_mem_nil
  have hready : m.pics.wired.config = ⟨.ready, 32, 0xFC, 4, false⟩ := hm
  have hrequest := hidle.request (by rw [hready])
  rw [hready] at hrequest
  rw [Pics.acknowledge]
  cases hreq : m.pics.wired.request with
  | none =>
    rw [hreq] at hrequest
    have hline := firstLine_eq_none.mp hrequest.symm 1 (by decide)
    rw [show m.pics.wired.irr 1 = m.pics.master.irr 1 from rfl, hone] at hline
    exact absurd hline (by decide)
  | some i =>
    have hmask := (Pic.request_some hreq).2.2
    rw [hready] at hmask
    dsimp only
    rw [if_neg]
    · rfl
    · rintro rfl
      exact absurd hmask (by decide)

end

/-! ### Every run -/

/-- **Interrupts from the firmware on.**  However the firmware left the controllers and the keyboard buffer, and in
whatever order lines rise, keys are pressed, and the steps of the kernel and of its handlers are taken:
the processor takes the vectors of the timer and of the keyboard, or a spurious one, and no other; every timer interrupt
is counted once; whenever it may take an interrupt, none is in service, so that no line is blocked; the bytes of the
keyboard are read once each and in their order; and when the kernel waits and nothing more can happen by itself, all of
them have been read. -/
theorem interrupts_run {pics : Pics} {queue : List UInt8} {obf : Option UInt8} {table : ℕ → Option Handler} {m : Machine}
    (h : Reaches Machine.Step (Machine.boot pics queue obf table) m) :
    (∀ v ∈ m.vectors, v = PIT_VECTOR_INDEX ∨ v = KEYBOARD_VECTOR ∨ v = 39) ∧
    m.ticks + m.code.countP Op.isTick = m.vectors.count PIT_VECTOR_INDEX ∧
    (m.interrupts = true → m.pics.master.Idle ∧ m.pics.slave.Idle) ∧
    m.typed = m.dropped ++ m.seen ++ (m.obf.toList ++ m.queue) ∧
    (m.code = [] → m.interrupts = true → m.exec .deliver = none → m.exec .load = none →
      m.typed = m.dropped ++ m.seen) := by
  have hm : Ordered pics.configs table m :=
    h.invariant (ordered_boot pics queue obf table) fun _ _ _ hm hstep => hm.step hstep
  have hasks := hm.asks
  obtain ⟨⟨k, front, r, hb⟩, hs⟩ := hm
  refine ⟨hs.vectors, hs.ticks, fun hon => ?_, hs.typed, fun hcode hon hdeliver hload => ?_⟩
  · obtain ⟨rfl, hk⟩ := hb.on hon
    have hfront := hb.front (by omega)
    exact ⟨hfront.idle, hfront.slave⟩
  · rw [Machine.exec, if_pos hon, Option.map_eq_none_iff] at hdeliver
    have hobf : m.obf = none := by
      cases hobf : m.obf with
      | none => rfl
      | some c =>
        have hsome := hasks hcode (by rw [hobf]; rfl)
        rw [hdeliver] at hsome
        cases hsome
    have hqueue : m.queue = [] := by
      cases hqueue : m.queue with
      | nil => rfl
      | cons c queue =>
        rw [Machine.exec, hobf, hqueue] at hload
        cases hload
    rw [hs.typed, hobf, hqueue]
    simp

/-- Controllers in an arbitrary state, with an interrupt still in service. -/
def firmwarePics : Pics :=
  ⟨⟨⟨.ready, 8, 0xB8, 0, true⟩, fun i => i == 0, fun i => i == 1⟩,
    ⟨⟨.icw4, 0x70, 0x8F, 0, false⟩, fun _ => false, fun i => i == 3⟩⟩

/-- The kernel boots over a byte that the firmware has left, and a timer interrupt comes while it reads the mask; then a
key is pressed. -/
def bootAndKey : List Event :=
  List.replicate 17 .step ++ [.step, .step, .step, .step, .step, .step, .step, .raise 0, .deliver] ++
    List.replicate 6 .step ++ [.step, .key 0x1E, .load, .deliver] ++ List.replicate 7 .step

def bootedMachine : Machine := runLast Machine.exec (Machine.boot firmwarePics [] (some 0xFA) fun _ => none) bootAndKey

theorem interrupts_run_key : Reaches Machine.Step (Machine.boot firmwarePics [] (some 0xFA) fun _ => none) bootedMachine ∧
    bootedMachine.dropped = [0xFA] ∧ bootedMachine.typed = bootedMachine.dropped ++ bootedMachine.seen ∧
      bootedMachine.ticks = 1 := by
  have hsteps :
      (runSteps Machine.exec (Machine.boot firmwarePics [] (some 0xFA) fun _ => none) bootAndKey).isSome = true := by
    decide
  have hrun : Reaches Machine.Step (Machine.boot firmwarePics [] (some 0xFA) fun _ => none) bootedMachine :=
    (trace_runLast hsteps).reaches .start
  obtain ⟨-, -, -, -, hread⟩ := interrupts_run hrun
  exact ⟨hrun, by decide, hread rfl (by decide) rfl rfl, by decide⟩

end LizardOs.Dev
