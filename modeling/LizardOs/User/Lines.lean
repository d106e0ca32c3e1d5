import Mathlib.Data.List.GetD
import LizardOs.Lib.Memmove
import LizardOs.User.StreamPosition

/-!
# The lines of a stream

`fgets` of `userspace/lib/stdio_file.c` over `fgetc`.  The calls on a stream cut the bytes of the file from its position
on into lines, none of them lost or got twice: a line ends with its line break, or because the array is full or the file
is at its end (`fgets_lines`).  With room for a byte at least, `NULL` says that the file is at its end.
-/

namespace LizardOs.User

open LizardOs.Lib LizardOs.Vfs LizardOs.Syscall

/-! ### The call of the library -/

/-- `'\n'`. -/
def newline : UInt8 := 10

section

variable {σ : Type} (K : Kernel σ) (cell : UInt64)

/-- The loop of `fgets`: how many bytes were stored, the array and the file.  There are `size - 1` rounds at most. -/
def fgetsLoop (size : ℤ) : ℕ → ℕ → Buf → Option File → σ → ℕ × Buf × Option File × σ
  | 0, i, out, f, s => (i, out, f, s)
  | k + 1, i, out, f, s =>
      if (i : ℤ) < size - 1 then
        let r := fgetc K cell f s
        if r.1 = EOF then (i, out, r.2)
        else
          let out := Function.update out i (UInt8.ofNat (r.1 % 256).toNat)
          if r.1 = (newline.toNat : ℤ) then (i + 1, out, r.2) else fgetsLoop size k (i + 1) out r.2.1 r.2.2
      else (i, out, f, s)

/-- `fgets`: whether it answers `s`, and else it is `NULL`; `out` is what lies at `s`. -/
def fgets (size : ℤ) (out : Buf) (f : Option File) (s : σ) : Bool × Buf × Option File × σ :=
  if size ≤ 0 ∨ f.isNone = true then (false, out, f, s)
  else
    let r := fgetsLoop K cell size (size - 1).toNat 0 out f s
    if r.1 = 0 then (false, r.2) else (true, Function.update r.2.1 r.1 0, r.2.2)

/-- A call of `fgets` with a size and an array. -/
def fgetsExec (call : ℤ × Buf) (x : Option File × σ) : (Bool × Buf) × (Option File × σ) :=
  let r := fgets K cell call.1 call.2 x.1 x.2
  ((r.1, r.2.1), r.2.2)

end

/-! ### What a line is -/

/-- How many bytes an array of that size has room for, beside the NUL. -/
def room (size : ℤ) : ℕ := (size - 1).toNat

/-- The line at the head of some bytes, of `n` bytes at most. -/
def lineOf : ℕ → List UInt8 → List UInt8
  | 0, _ => []
  | _ + 1, [] => []
  | n + 1, c :: rest => if c = newline then [c] else c :: lineOf n rest

/-- `l` is a line of `n` bytes at most, before the bytes `rest`. -/
structure IsLine (n : ℕ) (l rest : List UInt8) : Prop where
  short : l.length ≤ n
  inner : newline ∉ l.dropLast
  whole : l.getLast? = some (newline) ∨ l.length = n ∨ rest = []

/-- Some bytes that are cut into lines of given lengths at most, and what is left of them. -/
inductive Lines : List UInt8 → List ℕ → List (List UInt8) → List UInt8 → Prop
  | nil {data : List UInt8} : Lines data [] [] data
  | cons {n : ℕ} {ns : List ℕ} {l rest left : List UInt8} {ls : List (List UInt8)} (hline : IsLine n l rest)
      (hrest : Lines rest ns ls left) : Lines (l ++ rest) (n :: ns) (l :: ls) left

/-- What a program gets for a line: the array holds it and a NUL, or it is empty and the array as it was. -/
def handed (out : Buf) (l : List UInt8) : Bool × Buf :=
  if l = [] then (false, out) else (true, splice out 0 (fun j => l.getD j 0) (l.length + 1))

/-- A stream behind a line. -/
def Stream.behind (st : Stream) (l : List UInt8) : Stream := if l = [] then st else ⟨st.pos + l.length, false⟩

/-- What `fgets` does with a stream. -/
def fgetsSpec (data : List UInt8) (call : ℤ × Buf) (st : Stream) : (Bool × Buf) × Stream :=
  let l := lineOf (room call.1) (data.drop st.pos)
  (handed call.2 l, st.behind l)

@[simp] theorem lineOf_zero (data : List UInt8) : lineOf 0 data = [] := rfl

@[simp] theorem lineOf_nil (n : ℕ) : lineOf n [] = [] := by
  cases n with
  | zero => rfl
  | succ n => rfl

theorem lineOf_break (n : ℕ) (rest : List UInt8) : lineOf (n + 1) (newline :: rest) = [newline] := if_pos rfl

theorem lineOf_cons {c : UInt8} (hc : c ≠ newline) (n : ℕ) (rest : List UInt8) :
    lineOf (n + 1) (c :: rest) = c :: lineOf n rest := if_neg hc

@[simp] theorem behind_pos (st : Stream) (l : List UInt8) : (st.behind l).pos = st.pos + l.length := by
  rw [Stream.behind]
  split
  · next h => rw [h, List.length_nil, Nat.add_zero]
  · rfl

theorem behind_cons (pos : ℕ) (c : UInt8) (l : List UInt8) :
    (⟨pos + 1, false⟩ : Stream).behind l = ⟨pos + (c :: l).length, false⟩ := by
  rw [Stream.behind, List.length_cons]
  split
  · next h => rw [h, List.length_nil, Nat.zero_add]
  · rw [Nat.add_assoc, Nat.add_comm 1]

/-- The line at the head of some bytes is one. -/
theorem lineOf_spec (n : ℕ) (data : List UInt8) :
    lineOf n data ++ data.drop (lineOf n data).length = data ∧
      IsLine n (lineOf n data) (data.drop (lineOf n data).length) := by
  induction n generalizing data with
  | zero => exact ⟨rfl, Nat.le_refl 0, List.not_mem_nil, .inr (.inl rfl)⟩
  | succ n ih =>
    cases data with
    | nil => exact ⟨rfl, Nat.zero_le _, List.not_mem_nil, .inr (.inr rfl)⟩
    | cons c rest =>
      by_cases hc : c = newline
      · rw [hc, lineOf_break]
        exact ⟨rfl, Nat.succ_le_succ (Nat.zero_le n), List.not_mem_nil, .inl rfl⟩
      · obtain ⟨hall, hline⟩ := ih rest
        rw [lineOf_cons hc, List.length_cons, List.drop_succ_cons, List.cons_append, hall]
        refine ⟨rfl, Nat.succ_le_succ hline.short, ?_, ?_⟩
        · cases hl : lineOf n rest with
          | nil => exact List.not_mem_nil
          | cons d l =>
            have hinner := hline.inner
            rw [hl] at hinner
            rw [List.dropLast_cons_of_ne_nil (List.cons_ne_nil d l), List.mem_cons, not_or]
            exact ⟨Ne.symm hc, hinner⟩
        · rcases hline.whole with hlast | hfull | hend
          · refine .inl ?_
            rw [List.getLast?_cons, hlast, Option.getD_some]
          · exact .inr (.inl (by rw [List.length_cons, hfull]))
          · exact .inr (.inr hend)

example : lineOf 9 [chr 'a', newline, chr 'b'] = [chr 'a', newline] := by decide

section Lines

variable {data left : List UInt8} {ns : List ℕ} {ls : List (List UInt8)}

/-- Nothing is lost between the lines. -/
theorem Lines.flatten (h : Lines data ns ls left) : ls.flatten ++ left = data := by
  induction h with
  | nil => rfl
  | cons hline hrest ih => rw [List.flatten_cons, List.append_assoc, ih]

/-- With room for a byte, a line is empty at the end of the bytes only. -/
theorem Lines.ended (h : Lines data ns ls left) (hroom : ∀ n ∈ ns, 0 < n) (hempty : [] ∈ ls) : left = [] := by
  induction h with
  | nil => exact absurd hempty List.not_mem_nil
  | @cons n ns l rest left ls hline hrest ih =>
    rcases List.mem_cons.mp hempty with hl | hls
    · rcases hline.whole with hlast | hfull | hend
      · rw [← hl] at hlast
        cases hlast
      · have hpos := hroom n List.mem_cons_self
        rw [← hl, List.length_nil] at hfull
        omega
      · have hall := hrest.flatten
        rw [hend] at hall
        exact (List.append_eq_nil_iff.mp hall).2
    · exact ih (fun m hm => hroom m (List.mem_cons_of_mem n hm)) hls

/-- Lines that are not empty take a byte each. -/
theorem Lines.length_le (h : Lines data ns ls left) (hfull : [] ∉ ls) : ns.length ≤ ls.flatten.length := by
  induction h with
  | nil => exact Nat.le_refl 0
  | @cons n ns l rest left ls hline hrest ih =>
    rw [List.mem_cons, not_or] at hfull
    have hl : 0 < l.length := List.length_pos_of_ne_nil (Ne.symm hfull.1)
    have hls := ih hfull.2
    rw [List.flatten_cons, List.length_append, List.length_cons]
    omega

/-- Calls enough come to an empty line. -/
theorem Lines.mem_nil (h : Lines data ns ls left) (hmany : data.length < ns.length) : [] ∈ ls := by
  by_contra hfull
  have hle := h.length_le hfull
  have hall : ls.flatten.length + left.length = data.length := by rw [← List.length_append, h.flatten]
  omega

end Lines

/-! ### What a call does -/

section Calls

variable {σ : Type} {K : Kernel σ} {cell : UInt64} {fd : ℤ} {data : List UInt8} {At : σ → ℕ → Prop} {f : File} {s : σ}
  {st : Stream}

/-- A byte that is read is not the end of the file. -/
theorem byte_ne_EOF (c : UInt8) : (c.toNat : ℤ) ≠ EOF := by
  rw [EOF]
  omega

/-- A byte and the bytes behind it. -/
theorem splice_byte (out : Buf) (i : ℕ) (c : UInt8) (l : List UInt8) :
    splice (Function.update out i c) (i + 1) (fun j => l.getD j 0) l.length =
      splice out i (fun j => (c :: l).getD j 0) (c :: l).length := by
  have hfirst : Function.update out i c = splice out i (fun j => (c :: l).getD j 0) 1 := by
    have hone : Function.update (splice out i (fun j => (c :: l).getD j 0) 0) (i + 0) c =
        splice out i (fun j => (c :: l).getD j 0) (0 + 1) := splice_succ
    rw [splice_nothing] at hone
    exact hone
  have hbehind : (fun j => l.getD j 0) = fun j => (c :: l).getD (1 + j) 0 := by
    funext j
    rw [Nat.add_comm, List.getD_cons_succ]
  rw [hfirst, hbehind, splice_append, List.length_cons, Nat.add_comm 1]

/-- The loop gets the line at the position. -/
theorem File.Holds.fgetsLoop (hK : K.Serves fd data At) (hcell : cell ≠ 0) (hlow : cell.toNat + 1 ≤ 2 ^ 47) {size : ℤ}
    {k i : ℕ} (hk : (i : ℤ) + k = size - 1) (out : Buf) (h : f.Holds s fd data At st) :
    ∃ f' s', User.fgetsLoop K cell size k i out (some f) s =
        (i + (lineOf k (data.drop st.pos)).length,
          splice out i (fun j => (lineOf k (data.drop st.pos)).getD j 0) (lineOf k (data.drop st.pos)).length,
          some f', s') ∧
      f'.Holds s' fd data At (st.behind (lineOf k (data.drop st.pos))) := by
  induction k generalizing i out f s st with
  | zero =>
    refine ⟨f, s, ?_, h⟩
    rw [lineOf_zero, List.length_nil, splice_nothing]
    rfl
  | succ k ih =>
    have hround : (i : ℤ) < size - 1 := by omega
    obtain ⟨r, f', s', hcall, hspec, hnext⟩ := h.fgetc hK hcell hlow
    rw [User.fgetsLoop, if_pos hround, hcall]
    cases hc : data[st.pos]? with
    | none =>
      rw [StreamCall.spec, hc] at hspec hnext
      have hr : r = EOF := by cases hspec; rfl
      rw [List.drop_eq_nil_of_le (List.getElem?_eq_none_iff.mp hc), lineOf_nil, List.length_nil, splice_nothing]
      exact ⟨f', s', if_pos hr, hnext⟩
    | some c =>
      rw [StreamCall.spec, hc] at hspec hnext
      have hr : r = c.toNat := by cases hspec; rfl
      obtain ⟨hin, hget⟩ := List.getElem?_eq_some_iff.mp hc
      have hdrop : data.drop st.pos = c :: data.drop (st.pos + 1) := by rw [List.drop_eq_getElem_cons hin, hget]
      rw [hr, hdrop]
      simp only [if_neg (byte_ne_EOF c), byte_stored]
      by_cases hbreak : c = newline
      · rw [hbreak, lineOf_break, if_pos rfl, ← splice_byte, List.length_nil, splice_nothing]
        exact ⟨f', s', rfl, hnext⟩
      · have hno : (c.toNat : ℤ) ≠ (newline.toNat : ℤ) := fun heq => hbreak (UInt8.toNat_inj.mp (Int.ofNat_inj.mp heq))
        obtain ⟨f'', s'', hloop, hlast⟩ := ih (i := i + 1) (by omega) (Function.update out i c) hnext
        rw [behind_cons, ← lineOf_cons hbreak] at hlast
        rw [splice_byte, ← lineOf_cons hbreak] at hloop
        refine ⟨f'', s'', ?_, ?_⟩
        · rw [if_neg hno, hloop, lineOf_cons hbreak, List.length_cons, Nat.add_assoc, Nat.add_comm 1]
        · have hsome : lineOf (k + 1) (c :: data.drop (st.pos + 1)) ≠ [] := by
            rw [lineOf_cons hbreak]
            exact List.cons_ne_nil _ _
          rw [Stream.behind, if_neg hsome]
          exact hlast

/-- `fgets` gets the line at the position. -/
theorem File.Holds.fgets (hK : K.Serves fd data At) (hcell : cell ≠ 0) (hlow : cell.toNat + 1 ≤ 2 ^ 47)
    (h : f.Holds s fd data At st) (call : ℤ × Buf) :
    (fgetsExec K cell call (some f, s)).1 = (fgetsSpec data call st).1 ∧
      ∃ f', (fgetsExec K cell call (some f, s)).2.1 = some f' ∧
        f'.Holds (fgetsExec K cell call (some f, s)).2.2 fd data At (fgetsSpec data call st).2 := by
  obtain ⟨size, out⟩ := call
  by_cases hsize : size ≤ 0
  · have hroom : room size = 0 := by
      rw [room]
      omega
    rw [fgetsExec, fgetsSpec, hroom, lineOf_zero, User.fgets, if_pos (.inl hsize)]
    exact ⟨rfl, f, rfl, h⟩
  · have hno : ¬(size ≤ 0 ∨ (some f).isNone = true) := not_or.mpr ⟨hsize, Bool.false_ne_true⟩
    have hk : ((0 : ℕ) : ℤ) + (room size : ℕ) = size - 1 := by
      rw [room]
      omega
    obtain ⟨f', s', hloop, hnext⟩ := h.fgetsLoop hK hcell hlow hk out
    rw [fgetsExec, fgetsSpec, User.fgets, if_neg hno, ← room, hloop, Nat.zero_add, handed]
    by_cases hl : lineOf (room size) (data.drop st.pos) = []
    · simp only [hl, if_pos, List.length_nil, splice_nothing] at hnext ⊢
      exact ⟨trivial, f', rfl, hnext⟩
    · have hlength : ¬(lineOf (room size) (data.drop st.pos)).length = 0 := fun h0 => hl (List.length_eq_zero_iff.mp h0)
      simp only [if_neg hl, if_neg hlength]
      refine ⟨?_, f', rfl, hnext⟩
      rw [← splice_succ, Nat.zero_add, List.getD_eq_default _ _ (Nat.le_refl _)]

/-- The calls cut what is left of the file into lines. -/
theorem runCalls_fgetsSpec (data : List UInt8) (calls : List (ℤ × Buf)) (st : Stream) :
    ∃ ls left, Lines (data.drop st.pos) (calls.map fun call => room call.1) ls left ∧
      (runCalls (fgetsSpec data) calls st).1 = List.zipWith (fun call l => handed call.2 l) calls ls ∧
      (runCalls (fgetsSpec data) calls st).2.pos = st.pos + ls.flatten.length := by
  induction calls generalizing st with
  | nil => exact ⟨[], data.drop st.pos, .nil, rfl, rfl⟩
  | cons call calls ih =>
    obtain ⟨hall, hline⟩ := lineOf_spec (room call.1) (data.drop st.pos)
    obtain ⟨ls, left, hlines, hanswers, hpos⟩ := ih (fgetsSpec data call st).2
    have hnext : (fgetsSpec data call st).2.pos = st.pos + (lineOf (room call.1) (data.drop st.pos)).length :=
      behind_pos st _
    rw [hnext, ← List.drop_drop] at hlines
    refine ⟨lineOf (room call.1) (data.drop st.pos) :: ls, left, ?_, ?_, ?_⟩
    · have hcons := Lines.cons hline hlines
      rw [hall] at hcons
      exact hcons
    · rw [runCalls, hanswers]
      rfl
    · rw [runCalls, hpos, hnext, List.flatten_cons, List.length_append, Nat.add_assoc]

end Calls

/-- **The lines of a stream.**  Whatever the sizes, a run of `fgets` on a stream over an open file hands out the bytes
from the position on, cut into lines: each call gets the next line, none of its bytes lost, and a NUL behind it; `NULL`
stands for an empty one and leaves the array alone.  `ftell` then says the position behind the lines.  When every array
has room for a byte, `NULL` says that all bytes were got, and more calls than there are bytes come to it. -/
theorem fgets_lines {φ ι : Type} {ops : FsOps φ ι} {t : ℕ} {i : ι} {data : List UInt8} {good : φ → Prop}
    (hops : Keeps ops i data good) {cell : UInt64} (hcell : cell ≠ 0) (hlow : cell.toNat + 1 ≤ 2 ^ 47) {fd : ℤ}
    {f : File} {s : FileState φ ι} {st : Stream} (h : f.Holds s fd data (OpenAt t fd i good) st) (calls : List (ℤ × Buf)) :
    ∃ ls left, Lines (data.drop st.pos) (calls.map fun call => room call.1) ls left ∧
      (runCalls (fgetsExec (fileKernel ops t) cell) calls (some f, s)).1 =
        List.zipWith (fun call l => handed call.2 l) calls ls ∧
      (ftell (fileKernel ops t) (runCalls (fgetsExec (fileKernel ops t) cell) calls (some f, s)).2.1
        (runCalls (fgetsExec (fileKernel ops t) cell) calls (some f, s)).2.2).1 = st.pos + ls.flatten.length ∧
      ls.flatten ++ left = data.drop st.pos ∧
      ((∀ call ∈ calls, 2 ≤ call.1) →
        ([] ∈ ls → ls.flatten = data.drop st.pos) ∧ (data.length - st.pos < calls.length → [] ∈ ls)) := by
  have hK := fileKernel_serves hops t fd
  obtain ⟨ls, left, hlines, hanswers, hpos⟩ := runCalls_fgetsSpec data calls st
  have hstep : ∀ (x : Option File × FileState φ ι) (st : Stream) (call : ℤ × Buf),
      (∃ f, x.1 = some f ∧ f.Holds x.2 fd data (OpenAt t fd i good) st) →
        (fgetsExec (fileKernel ops t) cell call x).1 = (fgetsSpec data call st).1 ∧
          ∃ f, (fgetsExec (fileKernel ops t) cell call x).2.1 = some f ∧
            f.Holds (fgetsExec (fileKernel ops t) cell call x).2.2 fd data (OpenAt t fd i good)
              (fgetsSpec data call st).2 := by
    intro x st call hx
    obtain ⟨g, s⟩ := x
    obtain ⟨f, hf, hholds⟩ := hx
    rw [show g = some f from hf]
    exact hholds.fgets hK hcell hlow call
  have hstart : ∃ g, some f = some g ∧ g.Holds s fd data (OpenAt t fd i good) st := ⟨f, rfl, h⟩
  obtain ⟨hagree, f', hf', hholds⟩ := runCalls_agree hstep calls (s := (some f, s)) hstart
  refine ⟨ls, left, hlines, hagree.trans hanswers, ?_, hlines.flatten, fun hsizes => ⟨?_, ?_⟩⟩
  · obtain ⟨s', htell, -⟩ := hholds.ftell hK
    rw [hf', htell, hpos]
    exact Nat.cast_add _ _
  · intro hempty
    have hroom : ∀ n ∈ calls.map fun call => room call.1, 0 < n := by
      intro n hn
      obtain ⟨call, hcall, rfl⟩ := List.mem_map.mp hn
      have htwo := hsizes call hcall
      rw [room]
      omega
    have hleft := hlines.ended hroom hempty
    have hall := hlines.flatten
    rw [hleft, List.append_nil] at hall
    exact hall
  · intro hmany
    refine hlines.mem_nil ?_
    rw [List.length_drop, List.length_map]
    exact hmany

/-- Four arrays of three bytes. -/
def fourArrays : List (ℤ × Buf) := List.replicate 4 (3, fun _ => 0)

/-- They get `ab`, `c` and twice the end of the file. -/
theorem fgets_lines_abc :
    ∃ ls left, Lines abc [2, 2, 2, 2] ls left ∧
      (runCalls (fgetsExec (fileKernel oneFile 0) 0x1000) fourArrays (some logFile, abcOpened)).1 =
        List.zipWith (fun call l => handed call.2 l) fourArrays ls ∧
      [] ∈ ls ∧ ls.flatten = abc := by
  have hcell : (0x1000 : UInt64) ≠ 0 := by decide
  obtain ⟨ls, left, hlines, hanswers, -, -, hends⟩ := fgets_lines oneFile_keeps hcell (by decide) abc_holds fourArrays
  have hsizes : ∀ call ∈ fourArrays, 2 ≤ call.1 := by
    intro call hcall
    rw [List.eq_of_mem_replicate hcall]
    exact Int.le.intro 1 rfl
  obtain ⟨hall, hmany⟩ := hends hsizes
  have hempty := hmany (by decide)
  exact ⟨ls, left, hlines, hanswers, hempty, hall hempty⟩

end LizardOs.User
