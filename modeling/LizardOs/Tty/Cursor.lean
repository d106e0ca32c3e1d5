import LizardOs.Lib.ForLoop
import LizardOs.Tty.ReadLine

/-!
# The cursor of the console

The drawing half of `tty.c`: where characters are put and how the cursor moves, for output of programs and for the echo
of the line editor.  The system calls and the keyboard handler run with interrupts off, so their calls come one after
another.

The cursor stays on the grid as long as no key erases a character in the first two columns (`onGrid_iff`).
-/

namespace LizardOs.Tty

open LizardOs.Lib

def TAB_SIZE : ℕ := 4

/-- `n++` and `n--` of a `size_t`. -/
def incSize (n : ℕ) : ℕ := (n + 1) % 2 ^ 64

def decSize (n : ℕ) : ℕ := (n + (2 ^ 64 - 1)) % 2 ^ 64

/-- The grid of characters, the cursor, and the places that `tty_putentryat` has drawn at, latest first. -/
structure Terminal where
  terminalTextWidth : ℕ
  terminalTextHeight : ℕ
  terminalRow : ℕ
  terminalColumn : ℕ
  cmdStartRow : ℕ
  cmdStartColumn : ℕ
  textBuffer : ℕ → UInt8
  drawn : List (ℕ × ℕ)

namespace Terminal

/-- `is_cursor_after_input`; `is_pos_after_input` takes the row and the column as `unsigned`. -/
def isCursorAfterInput (t : Terminal) : Bool :=
  decide (t.cmdStartRow < t.terminalRow % 2 ^ 32 ∨
    (t.terminalRow % 2 ^ 32 = t.cmdStartRow ∧ t.cmdStartColumn < t.terminalColumn % 2 ^ 32))

/-- `tty_putentryat`. -/
def ttyPutentryat (t : Terminal) (c : UInt8) (x y : ℕ) : Terminal :=
  { t with
    textBuffer := Function.update t.textBuffer ((y * t.terminalTextWidth + x) % 2 ^ 64) c
    drawn := (x, y) :: t.drawn }

/-- `tty_scroll`; the pixels are moved by `scroll_framebuffer`. -/
def ttyScroll (t : Terminal) : Terminal := { t with terminalRow := decSize t.terminalRow }

/-- `tty_breakline`. -/
def ttyBreakline (t : Terminal) : Terminal :=
  let t := { t with terminalRow := incSize t.terminalRow, terminalColumn := 0 }
  if t.terminalRow = t.terminalTextHeight then t.ttyScroll else t

/-- `tty_clean`. -/
def ttyClean (t : Terminal) : Terminal := { t with terminalRow := 0, terminalColumn := 0 }

/-- The end of `tty_putchar`: a byte that is drawn. -/
def putGlyph (t : Terminal) (c : UInt8) : Terminal :=
  let t := t.ttyPutentryat c t.terminalColumn t.terminalRow
  let t := { t with terminalColumn := incSize t.terminalColumn }
  if t.terminalColumn = t.terminalTextWidth then t.ttyBreakline else t

/-- `tty_tab`; the spaces go through `tty_putchar`, which draws them. -/
def ttyTab (t : Terminal) : Terminal :=
  forLoop (TAB_SIZE - t.terminalColumn % TAB_SIZE) (fun _ t => t.putGlyph 32) t

/-- `tty_putchar`. -/
def ttyPutchar (t : Terminal) (c : UInt8) : Terminal :=
  if c = 10 then t.ttyBreakline
  else if c = 9 then t.ttyTab
  else if c = 12 then t.ttyClean
  else t.putGlyph c

/-- `tty_write`. -/
def ttyWrite (t : Terminal) (data : List UInt8) : Terminal := data.foldl ttyPutchar t

/-- `tty_backspace`. -/
def ttyBackspace (t : Terminal) : Terminal :=
  if t.isCursorAfterInput = true then
    let t := t.ttyPutentryat 32 (decSize t.terminalColumn) t.terminalRow
    let t := { t with terminalColumn := decSize t.terminalColumn }
    if t.terminalColumn = 0 then
      { t with terminalColumn := t.terminalTextWidth, terminalRow := decSize t.terminalRow }
    else t
  else t

end Terminal

/-- The terminal, and the line that is edited on it. -/
structure Editor where
  terminal : Terminal
  tty : Stdin

namespace Editor

/-- What `tty_handler_input` draws. -/
def drawInput (s : Editor) (scancode : UInt8) : Terminal :=
  if scancode = KEY_BACKSAPCE then
    if 0 < s.tty.ttyLine.length then s.terminal.ttyBackspace else s.terminal
  else if scancode = KEY_ENTER then s.terminal.ttyBreakline
  else if scancode < 0x80 then
    let c := convertScancode scancode
    if isAsciiCharacter c = true ∧ s.tty.ttyLine.length < TTY_LINE_MAX - 1 then
      let t := s.terminal.ttyPutchar c
      if t.terminalColumn = t.terminalTextWidth then t.ttyBreakline else t
    else s.terminal
  else s.terminal

/-- `tty_handler_input`. -/
def ttyHandlerInput (s : Editor) (scancode : UInt8) : Editor := ⟨s.drawInput scancode, s.tty.handlerInput scancode⟩

/-- What happens to the console: a program writes, or a key is handled. -/
inductive Call where
  | write (data : List UInt8)
  | key (scancode : UInt8)
deriving DecidableEq

def exec (s : Editor) : Call → Editor
  | .write data => { s with terminal := s.terminal.ttyWrite data }
  | .key scancode => s.ttyHandlerInput scancode

def Step (s : Editor) (c : Call) (s' : Editor) : Prop := s.exec c = s'

/-- After `tty_init`, with an empty line. -/
def start (textWidth textHeight : ℕ) : Editor :=
  ⟨⟨textWidth, textHeight, 0, 0, 0, 0, fun _ => 0, []⟩, ⟨fun _ => 0, 0, 0, []⟩⟩

end Editor

/-! ### The grid -/

/-- The cursor is on a grid of `w` by `h` characters, and so is every place that a character has been drawn at. -/
structure Terminal.OnGrid (t : Terminal) (w h : ℕ) : Prop where
  width : t.terminalTextWidth = w
  height : t.terminalTextHeight = h
  column : t.terminalColumn < w
  row : t.terminalRow < h
  drawn : ∀ p ∈ t.drawn, p.1 < w ∧ p.2 < h

namespace Terminal

variable {t : Terminal} {w h : ℕ}

/-- A new line: the next row, or the last one again after a scroll.  The column before it does not matter. -/
theorem onGrid_ttyBreakline (hwidth : t.terminalTextWidth = w) (hheight : t.terminalTextHeight = h)
    (hrow : t.terminalRow < h) (hdrawn : ∀ p ∈ t.drawn, p.1 < w ∧ p.2 < h) (hw : 0 < w) (hh : h < 2 ^ 64) :
    t.ttyBreakline.OnGrid w h := by
  have hinc : incSize t.terminalRow = t.terminalRow + 1 := Nat.mod_eq_of_lt (by omega)
  set t₁ : Terminal := { t with terminalRow := incSize t.terminalRow, terminalColumn := 0 } with ht₁
  have hline : t.ttyBreakline = if t₁.terminalRow = t₁.terminalTextHeight then t₁.ttyScroll else t₁ := rfl
  rw [hline]
  split
  · have hdec : decSize (incSize t.terminalRow) = t.terminalRow := by
      rw [hinc, decSize]
      omega
    rw [ttyScroll, ht₁]
    simp only [hdec]
    exact ⟨hwidth, hheight, hw, hrow, hdrawn⟩
  · rename_i hnext
    have hne : t.terminalRow + 1 ≠ h := by
      intro heq
      apply hnext
      rw [ht₁]
      exact (hinc.trans heq).trans hheight.symm
    have hplace : t₁.terminalRow < h := by
      show incSize t.terminalRow < h
      omega
    exact ⟨hwidth, hheight, hw, hplace, hdrawn⟩

theorem OnGrid.ttyBreakline (ht : t.OnGrid w h) (hw : 0 < w) (hh : h < 2 ^ 64) : t.ttyBreakline.OnGrid w h :=
  onGrid_ttyBreakline ht.width ht.height ht.row ht.drawn hw hh

/-- A glyph is drawn at the cursor, which moves on. -/
theorem OnGrid.putGlyph (ht : t.OnGrid w h) (c : UInt8) (hw : w < 2 ^ 64) (hh : h < 2 ^ 64) :
    (t.putGlyph c).OnGrid w h := by
  have hcolumn := ht.column
  have hinc : incSize t.terminalColumn = t.terminalColumn + 1 := Nat.mod_eq_of_lt (by omega)
  set t₁ : Terminal := { t.ttyPutentryat c t.terminalColumn t.terminalRow with
    terminalColumn := incSize t.terminalColumn } with ht₁
  have hdrawn : ∀ p ∈ t₁.drawn, p.1 < w ∧ p.2 < h := List.forall_mem_cons.mpr ⟨⟨hcolumn, ht.row⟩, ht.drawn⟩
  have hglyph : t.putGlyph c =
      if t₁.terminalColumn = t₁.terminalTextWidth then t₁.ttyBreakline else t₁ := rfl
  rw [hglyph]
  split
  · exact onGrid_ttyBreakline ht.width ht.height ht.row hdrawn (by omega) hh
  · rename_i hnext
    have hne : t.terminalColumn + 1 ≠ w := by
      intro heq
      apply hnext
      rw [ht₁]
      exact (hinc.trans heq).trans ht.width.symm
    have hplace : t₁.terminalColumn < w := by
      show incSize t.terminalColumn < w
      omega
    exact ⟨ht.width, ht.height, hplace, ht.row, hdrawn⟩

theorem OnGrid.ttyPutchar (ht : t.OnGrid w h) (c : UInt8) (hw : w < 2 ^ 64) (hh : h < 2 ^ 64) :
    (t.ttyPutchar c).OnGrid w h := by
  have hpos : 0 < w := Nat.lt_of_le_of_lt (Nat.zero_le _) ht.column
  rw [Terminal.ttyPutchar]
  split
  · exact ht.ttyBreakline hpos hh
  · split
    · exact forLoop_invariant (I := fun _ (t : Terminal) => t.OnGrid w h) ht fun _ _ _ ht => ht.putGlyph 32 hw hh
    · split
      · exact ⟨ht.width, ht.height, hpos, Nat.lt_of_le_of_lt (Nat.zero_le _) ht.row, ht.drawn⟩
      · exact ht.putGlyph c hw hh

theorem OnGrid.ttyWrite (ht : t.OnGrid w h) (data : List UInt8) (hw : w < 2 ^ 64) (hh : h < 2 ^ 64) :
    (t.ttyWrite data).OnGrid w h := by
  induction data generalizing t with
  | nil => exact ht
  | cons c data ih => exact ih (ht.ttyPutchar c hw hh)

/-- **Erasing a character** stays on the grid exactly when the cursor is not in the first two columns, or nothing is
erased. -/
theorem OnGrid.ttyBackspace_iff (ht : t.OnGrid w h) (hw : w < 2 ^ 64) :
    t.ttyBackspace.OnGrid w h ↔ (t.isCursorAfterInput = true → 2 ≤ t.terminalColumn) := by
  have hcolumn := ht.column
  by_cases hafter : t.isCursorAfterInput = true
  · set t₁ : Terminal := { t.ttyPutentryat 32 (decSize t.terminalColumn) t.terminalRow with
      terminalColumn := decSize t.terminalColumn } with ht₁
    have herase : t.ttyBackspace =
        if t₁.terminalColumn = 0 then
          { t₁ with terminalColumn := t₁.terminalTextWidth, terminalRow := decSize t₁.terminalRow }
        else t₁ := if_pos hafter
    rw [herase, hafter]
    simp only [forall_const]
    by_cases hzero : t₁.terminalColumn = 0
    · -- the cursor is put behind the last column
      rw [if_pos hzero]
      refine ⟨fun hbad => absurd hbad.column ?_, fun htwo => ?_⟩
      · show ¬t.terminalTextWidth < w
        rw [ht.width]
        exact Nat.lt_irrefl w
      · change decSize t.terminalColumn = 0 at hzero
        rw [decSize] at hzero
        omega
    · rw [if_neg hzero]
      change decSize t.terminalColumn ≠ 0 at hzero
      refine ⟨fun hgood => ?_, fun htwo => ?_⟩
      · have hplace : decSize t.terminalColumn < w := hgood.column
        rw [decSize] at hplace hzero
        omega
      · have hplace : decSize t.terminalColumn < w := by
          rw [decSize]
          omega
        exact ⟨ht.width, ht.height, hplace, ht.row, List.forall_mem_cons.mpr ⟨⟨hplace, ht.row⟩, ht.drawn⟩⟩
  · rw [ttyBackspace, if_neg hafter]
    exact ⟨fun _ h => absurd h hafter, fun _ => ht⟩

end Terminal

namespace Editor

/-- Backspace does not erase a character from a cursor in the first two columns. -/
def ErasesInside (s : Editor) (c : Call) : Prop :=
  c = .key KEY_BACKSAPCE → 0 < s.tty.ttyLine.length → s.terminal.isCursorAfterInput = true →
    2 ≤ s.terminal.terminalColumn

/-- One call keeps to the grid exactly when it erases inside of it. -/
theorem onGrid_step {s s' : Editor} {c : Call} {w h : ℕ} (hs : s.terminal.OnGrid w h) (hw : w < 2 ^ 64)
    (hh : h < 2 ^ 64) (hstep : s.Step c s') : s.ErasesInside c ↔ s'.terminal.OnGrid w h := by
  obtain rfl : s.exec c = s' := hstep
  have hpos : 0 < w := Nat.lt_of_le_of_lt (Nat.zero_le _) hs.column
  cases c with
  | write data => exact ⟨fun _ => hs.ttyWrite data hw hh, fun _ => nofun⟩
  | key scancode =>
    rw [exec, ttyHandlerInput, drawInput, ErasesInside]
    by_cases hback : scancode = KEY_BACKSAPCE
    · rw [if_pos hback, hback]
      simp only [forall_const]
      by_cases hline : 0 < s.tty.ttyLine.length
      · rw [if_pos hline, hs.ttyBackspace_iff hw]
        exact ⟨fun h => h hline, fun h _ => h⟩
      · rw [if_neg hline]
        exact ⟨fun _ => hs, fun _ h => absurd h hline⟩
    · have hfree : Call.key scancode ≠ .key KEY_BACKSAPCE := fun heq => hback (Call.key.inj heq)
      refine ⟨fun _ => ?_, fun _ heq => absurd heq hfree⟩
      rw [if_neg hback]
      split
      · exact hs.ttyBreakline hpos hh
      · split
        · simp only []
          split
          · have hchar := hs.ttyPutchar (convertScancode scancode) hw hh
            show (if _ then _ else _ : Terminal).OnGrid w h
            split
            · exact hchar.ttyBreakline hpos hh
            · exact hchar
          · exact hs
        · exact hs

/-- **The cursor stays on the grid** in exactly the runs whose backspace keys erase no character from a cursor in the
first two columns: then the cursor is on the grid after every call, and every character is drawn on the grid. -/
theorem onGrid_iff {w h : ℕ} (hw : 1 ≤ w) (hw64 : w < 2 ^ 64) (hh : 2 ≤ h) (hh64 : h < 2 ^ 64)
    {l : List (Editor × Call)} {s : Editor} (hrun : Trace Step (start w h) l s) :
    (∀ x ∈ l, x.1.ErasesInside x.2) ↔ (∀ x ∈ l, x.1.terminal.OnGrid w h) ∧ s.terminal.OnGrid w h := by
  have hstart : (start w h).terminal.OnGrid w h := by
    refine ⟨rfl, rfl, ?_, ?_, fun p hp => absurd hp List.not_mem_nil⟩
    · show 0 < w
      omega
    · show 0 < h
      omega
  exact hrun.invariant_iff (I := fun s => s.terminal.OnGrid w h) (K := ErasesInside) hstart
    fun _ _ _ hs hstep => onGrid_step hs hw64 hh64 hstep

/-- Two characters are typed, and the second one is erased. -/
theorem onGrid_iff_typo :
    (((start 80 25).exec (.key 0x1E)).exec (.key 0x30)).ErasesInside (.key KEY_BACKSAPCE) ∧
      ((((start 80 25).exec (.key 0x1E)).exec (.key 0x30)).exec (.key KEY_BACKSAPCE)).terminal.OnGrid 80 25 := by
  have hrun : Trace Step (start 80 25) _ ((((start 80 25).exec (.key 0x1E)).exec (.key 0x30)).exec (.key KEY_BACKSAPCE)) :=
    ((Trace.nil.snoc rfl).snoc rfl).snoc rfl
  have herases : (((start 80 25).exec (.key 0x1E)).exec (.key 0x30)).ErasesInside (.key KEY_BACKSAPCE) :=
    fun _ _ _ => by decide
  refine ⟨herases, ((onGrid_iff (by decide) (by decide) (by decide) (by decide) hrun).mp fun x hx => ?_).2⟩
  simp only [List.nil_append, List.cons_append, List.mem_cons, List.not_mem_nil, or_false] at hx
  rcases hx with rfl | rfl | rfl
  · exact fun heq => absurd heq (by decide)
  · exact fun heq => absurd heq (by decide)
  · exact herases

/-- One character is typed and erased: the cursor is behind the last column of the row above the first one. -/
theorem not_onGrid_erased : ¬∀ s, Reaches Step (start 80 25) s → s.terminal.OnGrid 80 25 := by
  intro hall
  have hreach : Reaches Step (start 80 25) (((start 80 25).exec (.key 0x1E)).exec (.key KEY_BACKSAPCE)) :=
    (Reaches.start.next rfl).next rfl
  have hcolumn := (hall _ hreach).column
  exact absurd hcolumn (by decide)

end Editor

end LizardOs.Tty
