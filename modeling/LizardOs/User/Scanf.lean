import LizardOs.User.Printf

/-!
# Formatted input

`userspace/lib/scanf.c`: `__vscan_core` takes its characters from a source, which has room for one that is put back.  A
format is the list of its characters, as for `vfmt`, and so is a string that is read.  The arguments are pointers, and what
is assigned is stored in memory; the string is not read from there.
-/

namespace LizardOs.User

open LizardOs.Lib

/-- What `get` gives at the end. -/
def EOF : ℤ := -1

/-- `struct src`: `left` says how many characters there are at most, so that every loop over them ends. -/
structure Src (σ : Type) where
  get : σ → ℤ × σ
  unget : σ → ℤ → σ
  left : σ → ℕ
  get_left : ∀ s, (get s).1 ≠ EOF → left (get s).2 < left s

def isspace (c : ℤ) : Bool := decide (c = (chr ' ').toNat) || (decide (9 ≤ c) && decide (c ≤ 13))

/-- A number as a `long`. -/
def int64 (x : ℤ) : ℤ := x.bmod (2 ^ 64)

/-- A `char` as an `int`, with its sign. -/
def charInt (c : UInt8) : ℤ := Int.bmod c.toNat (2 ^ 8)

/-- The byte that `(char)c` stores. -/
def byteOf (c : ℤ) : UInt8 := UInt8.ofNat (c % 2 ^ 8).toNat

/-! ### The loops over characters -/

section

variable {σ : Type} (src : Src σ)

/-- `do { c = get } while (isspace(c))`. -/
def skipSpaces : ℕ → σ → ℤ × σ
  | 0, s => src.get s
  | n + 1, s =>
      let (c, s) := src.get s
      if isspace c = true then skipSpaces n s else (c, s)

/-- The value of a digit. -/
def digitOf (c : ℤ) : Option ℤ :=
  if (chr '0').toNat ≤ c ∧ c ≤ (chr '9').toNat then some (c - (chr '0').toNat)
  else if (chr 'a').toNat ≤ c ∧ c ≤ (chr 'f').toNat then some (c - (chr 'a').toNat + 10)
  else if (chr 'A').toNat ≤ c ∧ c ≤ (chr 'F').toNat then some (c - (chr 'A').toNat + 10)
  else none

/-- The loop over the digits, at the character `c`: the value, whether there was a digit, and the character it ends at. -/
def scanNumber (base : ℤ) : ℕ → ℤ → ℤ → σ → ℤ → Bool → ℤ × Bool × ℤ × σ
  | 0, _, c, s, val, any => (val, any, c, s)
  | n + 1, width, c, s, val, any =>
      if 0 < width then
        match digitOf c with
        | some d =>
            if base ≤ d then (val, any, c, s)
            else
              let (c, s) := src.get s
              scanNumber base n (width - 1) c s (int64 (int64 (val * base) + d)) true
        | none => (val, any, c, s)
      else (val, any, c, s)

/-- The loops of `%s` and `%[`, at the character `c`: what they take until `stop`, and the character they end at. -/
def scanText (stop : ℤ → Bool) : ℕ → ℤ → ℤ → σ → List UInt8 → List UInt8 × ℤ × σ
  | 0, _, c, s, taken => (taken, c, s)
  | n + 1, width, c, s, taken =>
      if c ≠ EOF ∧ stop c = false ∧ 0 < width then
        let (c', s) := src.get s
        scanText stop n (width - 1) c' s (taken ++ [byteOf c])
      else (taken, c, s)

/-- The loop of `%c`. -/
def scanChars : ℕ → ℤ → σ → List UInt8 → List UInt8 × σ
  | 0, _, s, taken => (taken, s)
  | n + 1, width, s, taken =>
      if 0 < width then
        let (c, s) := src.get s
        if c = EOF then (taken, s) else scanChars n (width - 1) s (taken ++ [byteOf c])
      else (taken, s)

/-! ### The conversions -/

/-- The source, the memory, the next argument and how many values were assigned. -/
structure Scan (σ : Type) where
  src : σ
  mem : Buf
  ap : ℕ
  assigned : ℤ

/-- `assigned ? assigned : EOF`. -/
def Scan.fail (st : Scan σ) : ℤ := if st.assigned ≠ 0 then st.assigned else EOF

/-- One value more, unless it is suppressed. -/
def Scan.count (st : Scan σ) (suppress : Bool) : Scan σ :=
  if suppress then st else { st with assigned := int32 (st.assigned + 1) }

/-- The default width. -/
def SCAN_WIDTH : ℤ := 2 ^ 40

variable (args : ℕ → UInt64)

/-- `out`: the pointer of `%s`, `%c` and `%[`, which is null when the value is suppressed. -/
def Scan.out (st : Scan σ) (suppress : Bool) : ℕ × Scan σ :=
  if suppress then (0, st) else ((args st.ap).toNat, { st with ap := st.ap + 1 })

/-- Store a text, if there is a pointer. -/
def Scan.store (st : Scan σ) (out : ℕ) (text : List UInt8) : Scan σ :=
  if out ≠ 0 then { st with mem := splice st.mem out (bufOf text) text.length } else st

/-- The sign, if there is one at the character `c`. -/
def scanSign (width c : ℤ) (s : σ) : Bool × ℤ × ℤ × σ :=
  if c = (chr '+').toNat ∨ c = (chr '-').toNat then
    let (c', s) := src.get s
    (decide (c = (chr '-').toNat), width - 1, c', s)
  else (false, width, c, s)

/-- The prefix `0x` or, for `%i`, `0`, if there is one at the character `c`. -/
def scanPrefix (conv : UInt8) (base width c : ℤ) (s : σ) : ℤ × ℤ × ℤ × σ :=
  if (conv = chr 'i' ∨ conv = chr 'x') ∧ c = (chr '0').toNat then
    let (c2, s) := src.get s
    if c2 = (chr 'x').toNat ∨ c2 = (chr 'X').toNat then
      let (c, s) := src.get s
      (16, width - 2, c, s)
    else (if conv = chr 'i' then 8 else base, width, c, src.unget s c2)
  else (base, width, c, s)

/-- `%d`, `%i`, `%u`, `%x` and `%o`: whether to return, and the state. -/
def scanInt (conv : UInt8) (width : ℤ) (suppress : Bool) (st : Scan σ) : Option ℤ × Scan σ :=
  let base := if conv = chr 'x' then 16 else if conv = chr 'o' then 8 else 10
  let (c, s) := skipSpaces src (src.left st.src) st.src
  let (neg, width, c, s) := scanSign src width c s
  let (base, width, c, s) := scanPrefix src conv base width c s
  let (val, any, c, s) := scanNumber src base (src.left s + 1) width c s 0 false
  let st := { st with src := src.unget s c }
  if any = false then (some st.fail, st)
  else if suppress then (none, st)
  else
    let val := if neg then -val else val
    let st := { st with mem := storeLe st.mem (args st.ap).toNat 4 (val % 2 ^ 32).toNat, ap := st.ap + 1 }
    (none, st.count false)

/-- `%s`. -/
def scanString (width : ℤ) (suppress : Bool) (st : Scan σ) : Option ℤ × Scan σ :=
  let (c, s) := skipSpaces src (src.left st.src) st.src
  let (out, st) := st.out args suppress
  let (taken, c, s) := scanText src isspace (src.left s + 1) width c s []
  let st := { st with src := src.unget s c }
  if taken = [] then (some st.fail, st) else (none, (st.store out (taken ++ [0])).count suppress)

/-- `%c`. -/
def scanChar (width : ℤ) (suppress : Bool) (st : Scan σ) : Option ℤ × Scan σ :=
  let (out, st) := st.out args suppress
  let width := if width = SCAN_WIDTH then 1 else width
  let (taken, s) := scanChars src (src.left st.src + 1) width st.src []
  let st := { st with src := s }
  if taken = [] then (some st.fail, st) else (none, (st.store out taken).count suppress)

/-- `%[`, with what stands between the brackets: the NUL is stored in every case. -/
def scanSet (set : List UInt8) (negate : Bool) (width : ℤ) (suppress : Bool) (st : Scan σ) : Option ℤ × Scan σ :=
  let (out, st) := st.out args suppress
  let (c, s) := src.get st.src
  let (taken, c, s) := scanText src (fun c => set.any (fun x => decide ((x.toNat : ℤ) = c)) == negate)
    (src.left s + 1) width c s []
  let st := { st with src := src.unget s c }.store out (taken ++ [0])
  if taken = [] then (some st.fail, st) else (none, st.count suppress)

/-- `%%`. -/
def scanPercent (st : Scan σ) : Option ℤ × Scan σ :=
  let (c, s) := skipSpaces src (src.left st.src) st.src
  if c ≠ (chr '%').toNat then (some st.assigned, { st with src := src.unget s c }) else (none, { st with src := s })

/-! ### `__vscan_core` -/

/-- `while (isdigit(*fmt)) width = width * 10 + (*fmt++ - '0')`. -/
def scanWidth : List UInt8 → ℤ → ℤ × List UInt8
  | [], w => (w, [])
  | c :: fmt, w =>
      if isdigit c = true then scanWidth fmt (int64 (int64 (w * 10) + (c.toNat - (chr '0').toNat : ℤ))) else (w, c :: fmt)

/-- What follows a `%`: whether to return, the state after it, and the format left over. -/
def scanDirective (st : Scan σ) (fmt : List UInt8) : Option ℤ × Scan σ × List UInt8 :=
  let (suppress, fmt) := if fmt.head? = some (chr '*') then (true, fmt.tail) else (false, fmt)
  let (width, fmt) := scanWidth fmt 0
  let width := if width = 0 then SCAN_WIDTH else width
  let fmt := fmt.dropWhile fun c => c == chr 'l' || c == chr 'h' || c == chr 'z'
  match fmt with
  | [] => (some st.assigned, st, [])
  | conv :: fmt =>
      if conv = chr 'd' ∨ conv = chr 'i' ∨ conv = chr 'u' ∨ conv = chr 'x' ∨ conv = chr 'o' then
        let (r, st) := scanInt src args conv width suppress st
        (r, st, fmt)
      else if conv = chr 's' then
        let (r, st) := scanString src args width suppress st
        (r, st, fmt)
      else if conv = chr 'c' then
        let (r, st) := scanChar src args width suppress st
        (r, st, fmt)
      else if conv = chr '[' then
        let (negate, fmt) := if fmt.head? = some (chr '^') then (true, fmt.tail) else (false, fmt)
        let (r, st) := scanSet src args (fmt.takeWhile (· != chr ']')) negate width suppress st
        (r, st, (fmt.dropWhile (· != chr ']')).tail)
      else if conv = chr '%' then
        let (r, st) := scanPercent src st
        (r, st, fmt)
      else (some st.assigned, st, fmt)

/-- The loop over the format, in which each round takes a character at least. -/
def vscanLoop : ℕ → Scan σ → List UInt8 → ℤ × Scan σ
  | 0, st, _ => (st.assigned, st)
  | _ + 1, st, [] => (st.assigned, st)
  | n + 1, st, f :: fmt =>
      if isspace f.toNat = true then
        let (c, s) := skipSpaces src (src.left st.src) st.src
        vscanLoop n { st with src := src.unget s c } fmt
      else if f ≠ chr '%' then
        let (c, s) := src.get st.src
        if c ≠ charInt f then
          (if st.assigned ≠ 0 then st.assigned else if c = EOF then EOF else 0, { st with src := src.unget s c })
        else vscanLoop n { st with src := s } fmt
      else
        match scanDirective src args st fmt with
        | (some r, st, _) => (r, st)
        | (none, st, fmt) => vscanLoop n st fmt

/-- `__vscan_core`: what it returns, and the state after it. -/
def vscanCore (s : σ) (mem : Buf) (fmt : List UInt8) : ℤ × Scan σ :=
  vscanLoop src args fmt.length ⟨s, mem, 0, 0⟩ fmt

end

/-! ### Strings -/

/-- `struct strctx`, with the characters that `p` still points to. -/
structure StrCtx where
  p : List UInt8
  /-- The character that was put back, or −1. -/
  pushed : ℤ

def strGet (s : StrCtx) : ℤ × StrCtx :=
  if 0 ≤ s.pushed then (s.pushed, { s with pushed := -1 })
  else
    match s.p with
    | [] => (EOF, s)
    | c :: p => (c.toNat, { s with p := p })

def strUnget (s : StrCtx) (c : ℤ) : StrCtx := if c ≠ EOF then { s with pushed := c } else s

def strSrc : Src StrCtx where
  get := strGet
  unget := strUnget
  left s := s.p.length + if 0 ≤ s.pushed then 1 else 0
  get_left := by
    intro s hget
    rw [strGet] at hget ⊢
    by_cases hpushed : 0 ≤ s.pushed
    · rw [if_pos hpushed, if_pos hpushed]
      exact Nat.lt_succ_self _
    · rw [if_neg hpushed] at hget
      rw [if_neg hpushed, if_neg hpushed]
      cases hp : s.p with
      | nil =>
        rw [hp] at hget
        exact absurd rfl hget
      | cons c p =>
        show p.length + (if 0 ≤ s.pushed then 1 else 0) < p.length + 1 + 0
        rw [if_neg hpushed]
        exact Nat.lt_succ_self _

/-- `__vscan_str`. -/
def vscanStr (args : ℕ → UInt64) (mem : Buf) (str fmt : List UInt8) : ℤ × Scan StrCtx :=
  vscanCore strSrc args ⟨str, -1⟩ mem fmt

/-- `sscanf`. -/
def sscanf (args : ℕ → UInt64) (mem : Buf) (str fmt : List UInt8) : ℤ × Scan StrCtx := vscanStr args mem str fmt

end LizardOs.User
