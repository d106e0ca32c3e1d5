import LizardOs.Lib.Words
import LizardOs.Syscall.WorkingDir
import LizardOs.Tty.ReadLine

/-!
# The words of a command line

`tokenize` of the shell cuts the line in place: it overwrites the character behind each word with a null and stores
where the words begin.  The stored addresses lead to the words of the line, up to the 31 that the array has room for.
-/

namespace LizardOs.User.Shell

open LizardOs.Lib LizardOs.Vfs LizardOs.Syscall
open LizardOs.Tty (LINE_MAX)

/-- `MAX_ARGS` of the shell. -/
def MAX_ARGS : ℕ := 32

/-- `*p == ' ' || *p == '\t'`. -/
def isBlank (c : UInt8) : Bool := c == 32 || c == 9

/-- `*p && *p != ' ' && *p != '\t'`. -/
def inWord (c : UInt8) : Bool := c != 0 && !isBlank c

/-- The loops that move `p` on while it stands on a character of some kind; they look at `n` characters at most. -/
def skip (P : UInt8 → Bool) (mem : Buf) : ℕ → ℕ → Option ℕ
  | 0, _ => none
  | n + 1, p => if P (mem p) = true then skip P mem n (p + 1) else some p

/-- The loop of `tokenize`; there is room for `left` more words. -/
def tokenizeLoop (argv : ℕ) : ℕ → ℕ → ℕ → Buf → Option (ℕ × Buf)
  | 0, argc, _, mem => some (argc, mem)
  | left + 1, argc, p, mem =>
      if mem p = 0 then some (argc, mem)
      else
        match skip isBlank mem LINE_MAX p with
        | none => none
        | some p =>
            if mem p = 0 then some (argc, mem)
            else
              let mem := storeLe mem (argv + 8 * argc) 8 p
              match skip inWord mem LINE_MAX p with
              | none => none
              | some q =>
                  if mem q = 0 then tokenizeLoop argv left (argc + 1) q mem
                  else tokenizeLoop argv left (argc + 1) (q + 1) (Function.update mem q 0)

/-- `tokenize`: the number of words, and the memory with the cut line and the array. -/
def tokenize (line argv : ℕ) (mem : Buf) : Option (ℕ × Buf) :=
  (tokenizeLoop argv (MAX_ARGS - 1) 0 line mem).map fun r => (r.1, storeLe r.2 (argv + 8 * r.1) 8 0)

/-! ### One word -/

theorem skip_spec {P : UInt8 → Bool} {mem : Buf} {n k p : ℕ} (hkind : ∀ i < k, P (mem (p + i)) = true)
    (hend : P (mem (p + k)) = false) (hk : k < n) : skip P mem n p = some (p + k) := by
  induction n generalizing k p with
  | zero => exact absurd hk (Nat.not_lt_zero k)
  | succ n ih =>
    rw [skip]
    cases k with
    | zero =>
      rw [Nat.add_zero] at hend
      rw [if_neg (by rw [hend]; decide), Nat.add_zero]
    | succ k =>
      have hfirst := hkind 0 (Nat.succ_pos k)
      rw [Nat.add_zero] at hfirst
      have hplace : ∀ i, p + 1 + i = p + (i + 1) := fun i => by omega
      have hrest : skip P mem n (p + 1) = some (p + 1 + k) := by
        refine ih (fun i hi => ?_) ?_ (by omega)
        · rw [hplace]
          exact hkind (i + 1) (by omega)
        · rw [hplace]
          exact hend
      rw [if_pos hfirst, hrest, hplace]

/-- A string in memory, character by character. -/
structure TextAt (mem : Buf) (p : ℕ) (s : Name) : Prop where
  chars : ∀ i (h : i < s.length), mem (p + i) = s[i]
  final : mem (p + s.length) = 0
  proper : 0 ∉ s

theorem textAt_iff {mem : Buf} {p n : ℕ} {s : Name} (hn : s.length < n) :
    userStr mem p n = some s ↔ TextAt mem p s := by
  rw [userStr_eq_some]
  exact ⟨fun ⟨_, h0, hchars, hend⟩ => ⟨hchars, hend, h0⟩, fun h => ⟨hn, h.proper, h.chars, h.final⟩⟩

theorem TextAt.congr {mem mem' : Buf} {p : ℕ} {s : Name} (h : TextAt mem p s)
    (hsame : ∀ a, p ≤ a → a ≤ p + s.length → mem' a = mem a) : TextAt mem' p s where
  chars i hi := by rw [hsame _ (by omega) (by omega), h.chars i hi]
  final := by rw [hsame _ (by omega) le_rfl, h.final]
  proper := h.proper

/-- There is one string at an address. -/
theorem TextAt.unique {mem : Buf} {p : ℕ} {s t : Name} (hs : TextAt mem p s) (ht : TextAt mem p t) : s = t := by
  have hs' := (textAt_iff (n := max s.length t.length + 1) (by omega)).mpr hs
  have ht' := (textAt_iff (n := max s.length t.length + 1) (by omega)).mpr ht
  exact Option.some.inj (hs'.symm.trans ht')

/-- The end of a string is a string. -/
theorem TextAt.right {mem : Buf} {p : ℕ} {s t : Name} (h : TextAt mem p (s ++ t)) : TextAt mem (p + s.length) t where
  chars i hi := by
    rw [Nat.add_assoc, h.chars (s.length + i) (by rw [List.length_append]; omega),
      List.getElem_append_right (Nat.le_add_right _ _)]
    simp only [Nat.add_sub_cancel_left]
  final := by
    have hfinal := h.final
    rwa [List.length_append, ← Nat.add_assoc] at hfinal
  proper := fun h0 => h.proper (List.mem_append_right _ h0)

/-- The pieces of a string in front of another. -/
theorem TextAt.left {mem : Buf} {p : ℕ} {s t : Name} (h : TextAt mem p (s ++ t)) (i : ℕ) (hi : i < s.length) :
    mem (p + i) = s[i] := by
  rw [h.chars i (by rw [List.length_append]; omega), List.getElem_append_left hi]

theorem inWord_of_mem {c : UInt8} (h0 : c ≠ 0) (hblank : isBlank c = false) : inWord c = true := by
  simp [inWord, h0, hblank]

/-! ### The loop -/

/-- Words in memory between two addresses, with an array of their addresses at `slot`. -/
def WordsAt (mem : Buf) (lo hi : ℕ) : ℕ → List Name → Prop
  | _, [] => True
  | slot, w :: ws =>
      (∃ a, loadLe mem slot 8 = a ∧ lo ≤ a ∧ a + w.length < hi ∧ TextAt mem a w) ∧ WordsAt mem lo hi (slot + 8) ws

theorem WordsAt.congr {mem mem' : Buf} {lo hi slot : ℕ} {ws : List Name} (h : WordsAt mem lo hi slot ws)
    (htext : ∀ a, lo ≤ a → a < hi → mem' a = mem a)
    (hslots : ∀ a, slot ≤ a → a < slot + 8 * ws.length → mem' a = mem a) : WordsAt mem' lo hi slot ws := by
  induction ws generalizing slot with
  | nil => trivial
  | cons w ws ih =>
    obtain ⟨⟨a, hload, hlo, hhi, hw⟩, hrest⟩ := h
    rw [List.length_cons] at hslots
    refine ⟨⟨a, ?_, hlo, hhi, hw.congr fun x hx hx' => htext x (by omega) (by omega)⟩,
      ih hrest fun x hx hx' => hslots x (by omega) (by omega)⟩
    rw [← hload]
    exact loadLe_congr fun k hk => hslots (slot + k) (by omega) (by omega)

theorem WordsAt.mono {mem : Buf} {lo lo' hi slot : ℕ} {ws : List Name} (h : WordsAt mem lo hi slot ws) (hlo : lo' ≤ lo) :
    WordsAt mem lo' hi slot ws := by
  induction ws generalizing slot with
  | nil => trivial
  | cons w ws ih =>
    obtain ⟨⟨a, hload, ha, hhi, hw⟩, hrest⟩ := h
    exact ⟨⟨a, hload, hlo.trans ha, hhi, hw⟩, ih hrest⟩

theorem tokenizeLoop_final {argv left argc p : ℕ} {mem : Buf} (h : mem p = 0) :
    tokenizeLoop argv left argc p mem = some (argc, mem) := by
  cases left with
  | zero => rfl
  | succ left => rw [tokenizeLoop, if_pos h]

/-- **A round** that finds a word: it begins at `a`, which goes into the array, and ends in front of `q`. -/
theorem tokenizeLoop_word {argv left argc p a q : ℕ} {mem mem₁ : Buf} {b w rest : Name}
    (htext : TextAt mem p (b ++ (w ++ rest))) (hlen : (b ++ (w ++ rest)).length < LINE_MAX)
    (hapart : p + (b ++ (w ++ rest)).length < argv + 8 * argc ∨ argv + 8 * argc + 8 ≤ p)
    (hb : ∀ c ∈ b, isBlank c = true) (hne : w ≠ []) (hw : ∀ c ∈ w, isBlank c = false)
    (hrest : ∀ c, rest.head? = some c → isBlank c = true) (ha : p + b.length = a) (hq : a + w.length = q)
    (hmem₁ : storeLe mem (argv + 8 * argc) 8 a = mem₁) :
    TextAt mem₁ a (w ++ rest) ∧ tokenizeLoop argv (left + 1) argc p mem =
      if mem₁ q = 0 then tokenizeLoop argv left (argc + 1) q mem₁
      else tokenizeLoop argv left (argc + 1) (q + 1) (Function.update mem₁ q 0) := by
  have hsize : (b ++ (w ++ rest)).length = b.length + (w.length + rest.length) := by
    rw [List.length_append, List.length_append]
  have hpos : 0 < w.length := List.length_pos_iff.mpr hne
  rw [hsize] at hlen hapart
  have hblanks := htext.left
  have hwrest := htext.right
  rw [ha] at hwrest
  have hfirst : mem a = w[0] := hwrest.left 0 hpos
  have hfirst0 : mem a ≠ 0 := by
    intro h
    apply hwrest.proper
    rw [← h, hfirst]
    exact List.mem_append_left _ (List.getElem_mem hpos)
  have hskip : skip isBlank mem LINE_MAX p = some a := by
    rw [← ha]
    refine skip_spec (fun i hi => ?_) ?_ (by omega)
    · rw [hblanks i hi]
      exact hb _ (List.getElem_mem hi)
    · rw [ha, hfirst]
      exact hw _ (List.getElem_mem hpos)
  have hp0 : mem p ≠ 0 := by
    intro h
    cases hbl : b.length with
    | zero =>
      rw [hbl, Nat.add_zero] at ha
      exact hfirst0 (ha ▸ h)
    | succ n =>
      have hchar := hblanks 0 (by omega)
      rw [Nat.add_zero, h] at hchar
      exact htext.proper (hchar ▸ List.mem_append_left _ (List.getElem_mem _))
  -- the array is away from the line
  have htext₁ : TextAt mem₁ a (w ++ rest) := by
    refine hwrest.congr fun x hx hx' => ?_
    rw [List.length_append] at hx'
    rw [← hmem₁]
    exact splice_outside (by omega)
  have hrest₁ := htext₁.right
  rw [hq] at hrest₁
  have hword : skip inWord mem₁ LINE_MAX a = some q := by
    rw [← hq]
    refine skip_spec (fun i hi => ?_) ?_ (by omega)
    · rw [htext₁.left i hi]
      refine inWord_of_mem (fun h => htext₁.proper ?_) (hw _ (List.getElem_mem hi))
      rw [← h]
      exact List.mem_append_left _ (List.getElem_mem hi)
    · rw [hq]
      cases rest with
      | nil =>
        have hfinal : mem₁ q = 0 := hrest₁.final
        rw [hfinal]
        decide
      | cons c r =>
        have hc : mem₁ q = c := hrest₁.chars 0 (Nat.succ_pos _)
        rw [hc, inWord, hrest c rfl, Bool.not_true, Bool.and_false]
  refine ⟨htext₁, ?_⟩
  rw [tokenizeLoop, if_neg hp0]
  simp only [hskip, if_neg hfirst0, hmem₁, hword]

/-- **The loop** stores the addresses of the next words, as many as there is room for, and changes nothing but the line
and their slots. -/
theorem tokenizeLoop_spec {argv left argc p : ℕ} {mem : Buf} {s : Name} (htext : TextAt mem p s)
    (hlen : s.length < LINE_MAX) (hhigh : p + s.length < 2 ^ 64)
    (hapart : p + s.length < argv + 8 * argc ∨ argv + 8 * (argc + left) ≤ p) :
    ∃ mem', tokenizeLoop argv left argc p mem = some (argc + ((wordsOf isBlank s).take left).length, mem') ∧
      WordsAt mem' p (p + s.length + 1) (argv + 8 * argc) ((wordsOf isBlank s).take left) ∧
      ∀ a, a < p ∨ p + s.length ≤ a →
        a < argv + 8 * argc ∨ argv + 8 * (argc + ((wordsOf isBlank s).take left).length) ≤ a → mem' a = mem a := by
  induction left generalizing argc p mem s with
  | zero => exact ⟨mem, rfl, trivial, fun _ _ _ => rfl⟩
  | succ left ih =>
    have h0 : isBlank 0 = false := by decide
    rcases exists_word (P := isBlank) s with hall | ⟨b, w, rest, rfl, hb, hne, hw, hrest⟩
    · -- only blanks are left
      have hwords : wordsOf isBlank s = [] := by
        have hskip := wordsOf_separators hall []
        rwa [List.append_nil] at hskip
      rw [hwords]
      refine ⟨mem, ?_, trivial, fun _ _ _ => rfl⟩
      have hskip : skip isBlank mem LINE_MAX p = some (p + s.length) := by
        refine skip_spec (fun i hi => ?_) (by rw [htext.final]; exact h0) hlen
        rw [htext.chars i hi]
        exact hall _ (List.getElem_mem hi)
      rw [tokenizeLoop]
      split
      · rfl
      · simp only [hskip, htext.final, if_pos]
        rfl
    · obtain ⟨a, ha⟩ : ∃ a, p + b.length = a := ⟨_, rfl⟩
      obtain ⟨q, hq⟩ : ∃ q, a + w.length = q := ⟨_, rfl⟩
      obtain ⟨mem₁, hmem₁⟩ : ∃ mem₁, storeLe mem (argv + 8 * argc) 8 a = mem₁ := ⟨_, rfl⟩
      have hsize : (b ++ (w ++ rest)).length = b.length + (w.length + rest.length) := by
        rw [List.length_append, List.length_append]
      have hpos : 0 < w.length := List.length_pos_iff.mpr hne
      obtain ⟨htext₁, hround⟩ := tokenizeLoop_word htext hlen (by omega) hb hne hw hrest ha hq hmem₁
      have hrest₁ := htext₁.right
      rw [hq] at hrest₁
      rw [hsize] at hlen hhigh hapart ⊢
      have hslot : loadLe mem₁ (argv + 8 * argc) 8 = a := hmem₁ ▸ loadLe_storeLe (by omega)
      have houtside : ∀ x, x < argv + 8 * argc ∨ argv + 8 * argc + 8 ≤ x → mem₁ x = mem x := fun x hx =>
        hmem₁ ▸ splice_outside hx
      rw [hround]
      cases rest with
      | nil =>
        -- the last word of the line
        have hq0 : mem₁ q = 0 := hrest₁.final
        have hwords : (wordsOf isBlank (b ++ (w ++ []))).take (left + 1) = [w] := by
          rw [wordsOf_separators hb, List.append_nil, wordsOf_word hne hw]
          exact List.take_of_length_le (Nat.succ_le_succ (Nat.zero_le left))
        rw [hwords, if_pos hq0, tokenizeLoop_final hq0]
        rw [List.append_nil] at htext₁
        rw [List.length_nil] at hapart ⊢
        refine ⟨mem₁, rfl, ⟨⟨a, hslot, by omega, by omega, htext₁⟩, trivial⟩, fun x hx hx' => ?_⟩
        rw [List.length_singleton] at hx'
        exact houtside x (by omega)
      | cons c r =>
        -- the character behind the word becomes its end
        have hcblank : isBlank c = true := hrest c rfl
        have hqc : mem₁ q = c := hrest₁.chars 0 (Nat.succ_pos _)
        have hq0 : mem₁ q ≠ 0 := by
          rw [hqc]
          rintro rfl
          exact absurd hcblank (by decide)
        rw [List.length_cons] at hlen hhigh hapart ⊢
        obtain ⟨mem₂, hmem₂⟩ : ∃ mem₂, Function.update mem₁ q 0 = mem₂ := ⟨_, rfl⟩
        have hsame : ∀ x, x ≠ q → mem₂ x = mem₁ x := fun x hx => hmem₂ ▸ Function.update_of_ne hx ..
        have hend : mem₂ q = 0 := hmem₂ ▸ Function.update_self ..
        have hr : TextAt mem₂ (q + 1) r := TextAt.congr (TextAt.right (s := [c]) hrest₁) fun x hx hx' =>
          hsame x (by omega)
        have hapart' : q + 1 + r.length < argv + 8 * (argc + 1) ∨ argv + 8 * (argc + 1 + left) ≤ q + 1 := by omega
        obtain ⟨mem', hloop, hwordsAt, hframe⟩ := ih hr (by omega) (by omega) hapart'
        have hwords : (wordsOf isBlank (b ++ (w ++ c :: r))).take (left + 1) =
            w :: (wordsOf isBlank r).take left := by
          rw [wordsOf_separators hb, wordsOf_word_append hne hw hcblank]
          rfl
        have hcount : ((wordsOf isBlank r).take left).length ≤ left := List.length_take_le _ _
        rw [hwords, if_neg hq0, hmem₂, hloop, List.length_cons]
        rw [Nat.mul_succ, ← Nat.add_assoc] at hwordsAt hframe
        have hend' : q + 1 + r.length = p + (b.length + (w.length + (r.length + 1))) := by omega
        rw [hend'] at hwordsAt hframe
        refine ⟨mem', by rw [Nat.add_assoc, Nat.add_comm 1], ⟨⟨a, ?_, by omega, by omega, ?_⟩,
          hwordsAt.mono (by omega)⟩, fun x hx hx' => ?_⟩
        · rw [← hslot]
          refine loadLe_congr fun k hk => ?_
          rw [hframe _ (by omega) (by omega), hsame _ (by omega)]
        · refine ⟨fun i hi => ?_, ?_, fun h => htext₁.proper (List.mem_append_left _ h)⟩
          · rw [hframe _ (by omega) (by omega), hsame _ (by omega), htext₁.left i hi]
          · rw [hq, hframe _ (by omega) (by omega), hend]
        · rw [hframe x (by omega) (by omega), hsame x (by omega)]
          exact houtside x (by omega)

end LizardOs.User.Shell
