import Mathlib.Data.UInt
import Mathlib.Logic.Function.Basic

/-!
# The interrupt controllers

A PC has two 8259 controllers: the second one, the slave, asks for an interrupt on line 2 of the first one.  A
controller latches the lines that have risen, holds back those that are masked, passes the one with the smallest number
on to the processor, and keeps it in service until it is told that the interrupt has been handled; a line in service
blocks itself and every larger one.

`PIC_remap`, `PIC_sendEOI` and `PIC_unmaskIRQ` program them through their ports.
-/

namespace LizardOs.Dev

def PIC1_COMMAND : UInt16 := 0x20
def PIC1_DATA : UInt16 := 0x21
def PIC2_COMMAND : UInt16 := 0xA0
def PIC2_DATA : UInt16 := 0xA1
def PIC_EOI : UInt8 := 0x20
def PIC_INIT_COMMAND : UInt8 := 0x11
def PIC_CASCADE_CONFIG : UInt8 := 0x04
def PIC_MODE_CONFIG : UInt8 := 0x01
def PIC_VECTOR_OFFSET1 : UInt8 := 32
def PIC_VECTOR_OFFSET2 : UInt8 := 40

/-! ### The controller -/

/-- The initialisation command words that a controller still expects at its data port. -/
inductive IcwStage where
  | ready
  | icw2 (single icw4 : Bool)
  | icw3 (icw4 : Bool)
  | icw4
deriving DecidableEq

/-- What is programmed into a controller. -/
structure PicConfig where
  stage : IcwStage
  base : UInt8
  imr : UInt8
  icw3 : UInt8
  autoEoi : Bool
deriving DecidableEq

/-- A controller: its program, the lines that have risen, and those in service. -/
structure Pic where
  config : PicConfig
  irr : ℕ → Bool
  isr : ℕ → Bool

def bit (v : UInt8) (i : ℕ) : Bool := v.toNat.testBit i

namespace PicConfig

/-- The command port: bit 4 starts the initialisation. -/
def command (v : UInt8) (c : PicConfig) : PicConfig :=
  if bit v 4 then { c with stage := .icw2 (bit v 1) (bit v 0), imr := 0, autoEoi := false } else c

def afterIcw3 (icw4 : Bool) : IcwStage := if icw4 then .icw4 else .ready

/-- The data port: the next word of the initialisation, and the mask outside it. -/
def data (v : UInt8) (c : PicConfig) : PicConfig :=
  match c.stage with
  | .ready => { c with imr := v }
  | .icw2 single icw4 =>
      { c with base := v &&& 0xF8, stage := if single then afterIcw3 icw4 else .icw3 icw4 }
  | .icw3 icw4 => { c with icw3 := v, stage := afterIcw3 icw4 }
  | .icw4 => { c with autoEoi := bit v 1, stage := .ready }

end PicConfig

/-- The line with the smallest number, the one of highest priority. -/
def firstLine (p : ℕ → Bool) : Option ℕ := (List.range 8).find? p

namespace Pic

/-- The end of the interrupt in service that has the highest priority. -/
def eoi (p : Pic) : Pic :=
  match firstLine p.isr with
  | some i => { p with isr := Function.update p.isr i false }
  | none => p

/-- A write to the command port.  Of the commands that end an interrupt, the kernel gives the one that names no line. -/
def command (v : UInt8) (p : Pic) : Pic :=
  if bit v 4 then ⟨p.config.command v, fun _ => false, fun _ => false⟩
  else if v = PIC_EOI then p.eoi
  else p

/-- A write to the data port. -/
def data (v : UInt8) (p : Pic) : Pic := { p with config := p.config.data v }

/-- A line rises. -/
def raise (i : ℕ) (p : Pic) : Pic := { p with irr := Function.update p.irr i true }

/-- The line the controller asks for. -/
def request (p : Pic) : Option ℕ :=
  if p.config.stage = .ready then
    match firstLine fun i => p.irr i && !bit p.config.imr i with
    | some i => if (List.range (i + 1)).any p.isr then none else some i
    | none => none
  else none

/-- The processor takes the interrupt of a line. -/
def acknowledge (i : ℕ) (p : Pic) : Pic :=
  { p with irr := Function.update p.irr i false, isr := Function.update p.isr i (!p.config.autoEoi) }

end Pic

/-! ### The pair -/

/-- The two controllers. -/
structure Pics where
  master : Pic
  slave : Pic

namespace Pics

/-- `outb`, as far as the controllers see it. -/
def outb (port : UInt16) (value : UInt8) (p : Pics) : Pics :=
  if port = PIC1_COMMAND then { p with master := p.master.command value }
  else if port = PIC1_DATA then { p with master := p.master.data value }
  else if port = PIC2_COMMAND then { p with slave := p.slave.command value }
  else if port = PIC2_DATA then { p with slave := p.slave.data value }
  else p

/-- `inb` from a data port. -/
def inb (port : UInt16) (p : Pics) : UInt8 :=
  if port = PIC1_DATA then p.master.config.imr else p.slave.config.imr

/-- The first controller with the second one on its line 2. -/
def wired (p : Pics) : Pic :=
  { p.master with irr := fun i => if i = 2 then p.slave.request.isSome else p.master.irr i }

/-- A line of the sixteen rises. -/
def raise (line : ℕ) (p : Pics) : Pics :=
  if line < 8 then { p with master := p.master.raise line } else { p with slave := p.slave.raise (line - 8) }

/-- The processor asks for the vector, and the controllers note that it has the interrupt. -/
def acknowledge (p : Pics) : Option (ℕ × Pics) :=
  match p.wired.request with
  | none => none
  | some i =>
      if i = 2 then
        p.slave.request.map fun j =>
          (p.slave.config.base.toNat + j, ⟨p.master.acknowledge 2, p.slave.acknowledge j⟩)
      else some (p.master.config.base.toNat + i, { p with master := p.master.acknowledge i })

end Pics

/-! ### What one line in service does -/

section

variable {p : Pic} {i : ℕ}

theorem firstLine_eq_none {f : ℕ → Bool} : firstLine f = none ↔ ∀ i < 8, f i = false := by
  rw [firstLine, List.find?_eq_none]
  simp only [List.mem_range, Bool.not_eq_true]

theorem firstLine_eq_some {f : ℕ → Bool} (h : firstLine f = some i) : i < 8 ∧ f i = true :=
  ⟨List.mem_range.mp (List.mem_of_find?_eq_some h), List.find?_some h⟩

/-- No line is in service. -/
def Pic.Idle (p : Pic) : Prop := ∀ j, p.isr j = false

/-- At most one line is in service. -/
def Pic.Serves (p : Pic) (i : ℕ) : Prop := i < 8 ∧ ∀ j, j ≠ i → p.isr j = false

/-- Where nothing is in service, the end of an interrupt changes nothing. -/
theorem Pic.Idle.eoi (h : p.Idle) : p.eoi = p := by
  rw [Pic.eoi, firstLine_eq_none.mpr fun i _ => h i]

/-- The end of the only interrupt in service. -/
theorem Pic.Serves.eoi (h : p.Serves i) : p.eoi.Idle ∧ p.eoi.config = p.config ∧ p.eoi.irr = p.irr := by
  cases hfirst : firstLine p.isr with
  | none =>
    rw [Pic.eoi, hfirst]
    refine ⟨fun j => ?_, rfl, rfl⟩
    by_cases hj : j = i
    · rw [hj]
      exact firstLine_eq_none.mp hfirst i h.1
    · exact h.2 j hj
  | some k =>
    have hk : k = i := by
      by_contra hne
      exact Bool.false_ne_true ((h.2 k hne).symm.trans (firstLine_eq_some hfirst).2)
    rw [Pic.eoi, hfirst]
    refine ⟨fun j => ?_, rfl, rfl⟩
    dsimp only
    by_cases hj : j = k
    · rw [hj, Function.update_self]
    · rw [Function.update_of_ne hj]
      exact h.2 j fun heq => hj (heq.trans hk.symm)

/-- A controller with nothing in service asks for the first line that has risen and is not masked. -/
theorem Pic.Idle.request (h : p.Idle) (hready : p.config.stage = .ready) :
    p.request = firstLine fun i => p.irr i && !bit p.config.imr i := by
  rw [Pic.request, if_pos hready]
  split
  · rename_i i hfirst
    rw [if_neg, hfirst]
    simp only [List.any_eq_true, not_exists, not_and, Bool.not_eq_true]
    exact fun j _ => h j
  · rename_i hfirst
    exact hfirst.symm

/-- A line the controller asks for has risen and is not masked. -/
theorem Pic.request_some (h : p.request = some i) : i < 8 ∧ p.irr i = true ∧ bit p.config.imr i = false := by
  rw [Pic.request] at h
  split at h
  · split at h
    · rename_i k hfirst
      split at h
      · cases h
      · obtain ⟨hlt, hk⟩ := firstLine_eq_some hfirst
        rw [Bool.and_eq_true, Bool.not_eq_true'] at hk
        obtain rfl := Option.some.inj h
        exact ⟨hlt, hk⟩
    · cases h
  · cases h

/-- A controller whose lines are all masked asks for none. -/
theorem Pic.request_masked (h : ∀ i < 8, bit p.config.imr i = true) : p.request = none := by
  cases hreq : p.request with
  | none => rfl
  | some i =>
    obtain ⟨hlt, -, hmask⟩ := Pic.request_some hreq
    exact absurd ((h i hlt).symm.trans hmask) Bool.true_eq_false.mp

/-- The interrupt that is taken is the only one in service. -/
theorem Pic.Idle.acknowledge (h : p.Idle) (hi : i < 8) : (p.acknowledge i).Serves i :=
  ⟨hi, fun j hj => (Function.update_of_ne hj _ _).trans (h j)⟩

end

end LizardOs.Dev
