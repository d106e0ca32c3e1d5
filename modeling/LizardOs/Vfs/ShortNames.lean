import LizardOs.Vfs.FatVolume
import LizardOs.Vfs.ResolveInto

/-!
# 8.3 names there and back

`fat16_name_to_str` fills a buffer of `FAT16_NAME_MAX` bytes at most, whatever the name on the disk is.  What it makes
of a short name `fat16_str_to_name` takes apart into the same 11 bytes, and short names that differ give strings that
differ in more than the case of their letters.
-/

namespace LizardOs.Vfs

open LizardOs.Lib LizardOs.Fat

/-! ### The buffer -/

/-- `out[pos++] = c;` -/
def putChar (s : Buf × ℕ) (c : UInt8) : Buf × ℕ := (Function.update s.1 s.2 c, s.2 + 1)

/-- `if (c != ' ') out[pos++] = c;` -/
def putUnpadded (s : Buf × ℕ) (c : UInt8) : Buf × ℕ := if c ≠ 0x20 then putChar s c else s

/-- `fat16_name_to_str` with the buffer of its caller, and how many bytes it has written. -/
def nameToStrInto (name : Vector UInt8 8) (ext : Vector UInt8 3) (out : Buf) : Buf × ℕ :=
  let s := name.toList.foldl putUnpadded (out, 0)
  let s := if getElem ext 0 ext_pos ≠ 0x20 then ext.toList.foldl putUnpadded (putChar s 0x2E) else s
  putChar s 0

/-- A buffer with `l` at its beginning, and the position behind it. -/
def laid (out : Buf) (l : List UInt8) : Buf × ℕ := (putBytes out 0 l, l.length)

theorem putChar_laid (out : Buf) (l : List UInt8) (c : UInt8) : putChar (laid out l) c = laid out (l ++ [c]) := by
  have hbytes := putBytes_append out 0 l [c]
  rw [Nat.zero_add, ← update_eq_putBytes] at hbytes
  rw [putChar, laid, laid, hbytes, List.length_append, List.length_singleton]

theorem filter_byte {c : UInt8} (cs : List UInt8) (hc : c ≠ 0x20) :
    (c :: cs).filter (· ≠ 0x20) = c :: cs.filter (· ≠ 0x20) := List.filter_cons_of_pos (decide_eq_true hc)

theorem filter_space {c : UInt8} (cs : List UInt8) (hc : ¬c ≠ 0x20) :
    (c :: cs).filter (· ≠ 0x20) = cs.filter (· ≠ 0x20) :=
  List.filter_cons_of_neg fun h => hc (of_decide_eq_true h)

theorem foldl_putUnpadded (out : Buf) (l cs : List UInt8) :
    cs.foldl putUnpadded (laid out l) = laid out (l ++ cs.filter (· ≠ 0x20)) := by
  induction cs generalizing l with
  | nil => rw [List.filter_nil, List.append_nil, List.foldl_nil]
  | cons c cs ih =>
    rw [List.foldl_cons, putUnpadded]
    by_cases hc : c ≠ 0x20
    · rw [if_pos hc, putChar_laid, ih, filter_byte cs hc, List.append_assoc, List.singleton_append]
    · rw [if_neg hc, ih, filter_space cs hc]

theorem nameToStrInto_eq (name : Vector UInt8 8) (ext : Vector UInt8 3) (out : Buf) :
    nameToStrInto name ext out = laid out (fat16NameToStr name ext ++ [0]) := by
  have hstart : (out, 0) = laid out [] := rfl
  rw [nameToStrInto, fat16NameToStr, hstart, foldl_putUnpadded, List.nil_append]
  by_cases hext : ext[0] ≠ 0x20
  · simp only [if_pos hext]
    rw [putChar_laid, foldl_putUnpadded, putChar_laid, List.append_assoc _ [0x2E], List.singleton_append]
  · simp only [if_neg hext]
    rw [putChar_laid, List.append_nil]

/-! ### Short names -/

/-- The name of an entry on the disk: printable, without small letters, padded at the end of either field. -/
structure ShortName (name : Vector UInt8 8) (ext : Vector UInt8 3) : Prop where
  printable : ∀ c ∈ name.toList ++ ext.toList, printable c = true
  noLower : ∀ c ∈ name.toList ++ ext.toList, ¬(0x61 ≤ c ∧ c ≤ 0x7A)
  noDot : 0x2E ∉ name.toList
  noSlash : 0x2F ∉ name.toList
  namePadding : name.toList.Pairwise fun c d => c = 0x20 → d = 0x20
  extPadding : ext.toList.Pairwise fun c d => c = 0x20 → d = 0x20
  nonempty : ∃ c ∈ name.toList, c ≠ 0x20

/-- A field whose spaces are padding is what is left without them, padded. -/
theorem padded_of_pairwise {l : List UInt8} (h : l.Pairwise fun c d => c = 0x20 → d = 0x20) :
    l = l.filter (· ≠ 0x20) ++ List.replicate (l.length - (l.filter (· ≠ 0x20)).length) 0x20 := by
  induction l with
  | nil => rfl
  | cons c l ih =>
    obtain ⟨hfirst, hrest⟩ := List.pairwise_cons.mp h
    by_cases hc : c = 0x20
    · have hall : ∀ d ∈ c :: l, d = 0x20 := by
        intro d hd
        rcases List.mem_cons.mp hd with rfl | hd
        · exact hc
        · exact hfirst d hd hc
      have hnone : (c :: l).filter (· ≠ 0x20) = [] := by
        rw [List.filter_eq_nil_iff]
        exact fun d hd hne => of_decide_eq_true hne (hall d hd)
      rw [hnone, List.nil_append, List.length_nil, Nat.sub_zero]
      exact List.eq_replicate_of_mem hall
    · rw [filter_byte l hc, List.length_cons, List.length_cons, Nat.succ_sub_succ, List.cons_append]
      exact congrArg (List.cons c) (ih hrest)

theorem space_not_mem_filter (l : List UInt8) : 0x20 ∉ l.filter (· ≠ 0x20) :=
  fun h => of_decide_eq_true (List.mem_filter.mp h).2 rfl

section

variable {name name' : Vector UInt8 8} {ext ext' : Vector UInt8 3}

theorem pad8_filter (h : name.toList.Pairwise fun c d => c = 0x20 → d = 0x20) :
    pad8 (name.toList.filter (· ≠ 0x20)) = name := by
  have hlen := List.length_filter_le (fun c : UInt8 => decide (c ≠ 0x20)) name.toList
  have hpadded := padded_of_pairwise h
  rw [Vector.length_toList] at hlen hpadded
  refine Vector.toList_inj.mp ?_
  rw [pad8_toList hlen]
  exact hpadded.symm

theorem pad3_filter (h : ext.toList.Pairwise fun c d => c = 0x20 → d = 0x20) :
    pad3 (ext.toList.filter (· ≠ 0x20)) = ext := by
  have hlen := List.length_filter_le (fun c : UInt8 => decide (c ≠ 0x20)) ext.toList
  have hpadded := padded_of_pairwise h
  rw [Vector.length_toList] at hlen hpadded
  refine Vector.toList_inj.mp ?_
  rw [pad3_toList hlen]
  exact hpadded.symm

/-- The string of a short name: its fields without the padding, and the dot only in front of an extension. -/
theorem ShortName.render (h : ShortName name ext) :
    fat16NameToStr name ext = name.toList.filter (· ≠ 0x20) ++
      if ext.toList.filter (· ≠ 0x20) = [] then [] else 0x2E :: ext.toList.filter (· ≠ 0x20) := by
  have hb := List.length_filter_le (fun c : UInt8 => decide (c ≠ 0x20)) name.toList
  have he := List.length_filter_le (fun c : UInt8 => decide (c ≠ 0x20)) ext.toList
  rw [Vector.length_toList] at hb he
  have hrender := fat16NameToStr_pad hb he (space_not_mem_filter _) (space_not_mem_filter _)
  rwa [pad8_filter h.namePadding, pad3_filter h.extPadding] at hrender

theorem mem_fat16NameToStr {c : UInt8} (h : c ∈ fat16NameToStr name ext) :
    c ∈ name.toList ++ ext.toList ∨ c = 0x2E := by
  rw [fat16NameToStr, List.mem_append] at h
  rcases h with h | h
  · exact .inl (List.mem_append_left _ (List.mem_filter.mp h).1)
  · split at h
    · rcases List.mem_cons.mp h with rfl | h
      · exact .inr rfl
      · exact .inl (List.mem_append_right _ (List.mem_filter.mp h).1)
    · cases h

theorem ShortName.zero_not_mem (h : ShortName name ext) : 0 ∉ fat16NameToStr name ext := by
  intro hmem
  rcases mem_fat16NameToStr hmem with hmem | hdot
  · exact absurd (h.printable 0 hmem) (by decide)
  · exact absurd hdot (by decide)

/-! ### There and back -/

theorem toUpper_eq_self {c : UInt8} (h : ¬(0x61 ≤ c ∧ c ≤ 0x7A)) : toUpper c = c := if_neg h

theorem toUpper_tolower {c : UInt8} (h : ¬(0x61 ≤ c ∧ c ≤ 0x7A)) : toUpper (tolower c) = c := by
  rw [tolower]
  split
  · rw [toUpper]
    grind
  · exact toUpper_eq_self h

theorem map_toUpper_eq_self {l : List UInt8} (h : ∀ c ∈ l, ¬(0x61 ≤ c ∧ c ≤ 0x7A)) : l.map toUpper = l :=
  (List.map_congr_left fun c hc => toUpper_eq_self (h c hc)).trans (List.map_id' l)

/-- A string is split at its first dot. -/
theorem span_dot {b : List UInt8} (hb : 0x2E ∉ b) (e : List UInt8) :
    (b ++ 0x2E :: e).takeWhile (· ≠ 0x2E) = b ∧ (b ++ 0x2E :: e).dropWhile (· ≠ 0x2E) = 0x2E :: e := by
  have hall : ∀ c ∈ b, decide (c ≠ (0x2E : UInt8)) = true := fun c hc => decide_eq_true fun h => hb (h ▸ hc)
  rw [List.takeWhile_append_of_pos hall, List.dropWhile_append_of_pos hall]
  exact ⟨List.append_nil b, rfl⟩

theorem span_noDot {b : List UInt8} (hb : 0x2E ∉ b) :
    b.takeWhile (· ≠ 0x2E) = b ∧ b.dropWhile (· ≠ 0x2E) = [] := by
  have hall : ∀ c ∈ b, decide (c ≠ (0x2E : UInt8)) = true := fun c hc => decide_eq_true fun h => hb (h ▸ hc)
  exact ⟨List.takeWhile_eq_self_iff.mpr hall, List.dropWhile_eq_nil_iff.mpr hall⟩

/-- **`fat16_str_to_name`** of a base and an extension without small letters. -/
theorem fat16StrToName_joined {b e : List UInt8} (hb : b.length ≤ 8) (he : e.length ≤ 3) (hne : b ≠ [])
    (hdot : 0x2E ∉ b) (hslash : 0x2F ∉ b) (hupper : ∀ c ∈ b ++ e, ¬(0x61 ≤ c ∧ c ≤ 0x7A)) :
    fat16StrToName (b ++ if e = [] then [] else 0x2E :: e) = some (pad8 b, pad3 e) := by
  have hpos : b.length ≠ 0 := fun h => hne (List.eq_nil_of_length_eq_zero h)
  have hskip : ∀ t, skipSlashes (b ++ t) = b ++ t := by
    intro t
    cases b with
    | nil => exact absurd rfl hne
    | cons c b =>
      have hc : ¬(decide (c = 0x2F) = true) := fun h => hslash (of_decide_eq_true h ▸ List.mem_cons_self)
      exact List.dropWhile_cons_of_neg hc
  have hub := map_toUpper_eq_self fun c hc => hupper c (List.mem_append_left e hc)
  have hue := map_toUpper_eq_self fun c hc => hupper c (List.mem_append_right b hc)
  rw [fat16StrToName]
  simp only [hskip]
  by_cases hnil : e = []
  · obtain ⟨htake, hdrop⟩ := span_noDot hdot
    rw [if_pos hnil, List.append_nil]
    simp only [htake, hdrop, hub]
    rw [if_neg (Nat.not_lt.mpr hb), if_neg hpos, hnil]
  · obtain ⟨htake, hdrop⟩ := span_dot hdot e
    rw [if_neg hnil]
    simp only [htake, hdrop, hub, hue]
    rw [if_neg (Nat.not_lt.mpr hb), if_neg hpos, if_neg (Nat.not_lt.mpr he)]

theorem ShortName.parse (h : ShortName name ext) : fat16StrToName (fat16NameToStr name ext) = some (name, ext) := by
  have hb := List.length_filter_le (fun c : UInt8 => decide (c ≠ 0x20)) name.toList
  have he := List.length_filter_le (fun c : UInt8 => decide (c ≠ 0x20)) ext.toList
  rw [Vector.length_toList] at hb he
  have hsub : ∀ c ∈ name.toList.filter (· ≠ 0x20), c ∈ name.toList := fun c hc => (List.mem_filter.mp hc).1
  have hsub' : ∀ c ∈ ext.toList.filter (· ≠ 0x20), c ∈ ext.toList := fun c hc => (List.mem_filter.mp hc).1
  have hne : name.toList.filter (· ≠ 0x20) ≠ [] := by
    obtain ⟨c, hc, hspace⟩ := h.nonempty
    exact List.ne_nil_of_mem (List.mem_filter.mpr ⟨hc, decide_eq_true hspace⟩)
  have hupper : ∀ c ∈ name.toList.filter (· ≠ 0x20) ++ ext.toList.filter (· ≠ 0x20), ¬(0x61 ≤ c ∧ c ≤ 0x7A) := by
    intro c hc
    refine h.noLower c (List.mem_append.mpr ?_)
    rcases List.mem_append.mp hc with hc | hc
    · exact .inl (hsub c hc)
    · exact .inr (hsub' c hc)
  rw [h.render, fat16StrToName_joined hb he hne (fun hc => h.noDot (hsub _ hc)) (fun hc => h.noSlash (hsub _ hc))
    hupper, pad8_filter h.namePadding, pad3_filter h.extPadding]

/-- Strings of short names that are equal but for the case of letters are equal. -/
theorem ShortName.render_inj (h : ShortName name ext) (h' : ShortName name' ext')
    (hlower : (fat16NameToStr name ext).map tolower = (fat16NameToStr name' ext').map tolower) :
    fat16NameToStr name ext = fat16NameToStr name' ext' := by
  have hback : ∀ {n : Vector UInt8 8} {e : Vector UInt8 3}, ShortName n e →
      ((fat16NameToStr n e).map tolower).map toUpper = fat16NameToStr n e := by
    intro n e hshort
    rw [List.map_map]
    refine (List.map_congr_left fun c hc => ?_).trans (List.map_id' _)
    rcases mem_fat16NameToStr hc with hc | rfl
    · exact toUpper_tolower (hshort.noLower c hc)
    · decide
  rw [← hback h, hlower, hback h']

/-- **8.3 names round-trip**: the string of a short name parses to the name, a rendering fits into `FAT16_NAME_MAX`
bytes whatever is on the disk, and short names have equal strings just when they are equal. -/
theorem names_roundTrip :
    (∀ name ext, ShortName name ext → fat16StrToName (fat16NameToStr name ext) = some (name, ext)) ∧
      (∀ name ext out, nameToStrInto name ext out =
          (putBytes out 0 (fat16NameToStr name ext ++ [0]), (fat16NameToStr name ext).length + 1) ∧
        (nameToStrInto name ext out).2 ≤ FAT16_NAME_MAX ∧
        ∀ k, FAT16_NAME_MAX ≤ k → (nameToStrInto name ext out).1 k = out k) ∧
      ∀ name ext name' ext', ShortName name ext → ShortName name' ext' →
        (strcasecmp (fat16NameToStr name ext) (fat16NameToStr name' ext') = 0 ↔ (name, ext) = (name', ext')) := by
  refine ⟨fun name ext h => h.parse, fun name ext out => ?_, fun name ext name' ext' h h' => ?_⟩
  · have heq : nameToStrInto name ext out =
        (putBytes out 0 (fat16NameToStr name ext ++ [0]), (fat16NameToStr name ext).length + 1) := by
      rw [nameToStrInto_eq, laid, List.length_append, List.length_singleton]
    have hlen := fat16NameToStr_length name ext
    refine ⟨heq, ?_, fun k hk => ?_⟩
    · rw [heq]
      exact hlen
    · have hend : 0 + (fat16NameToStr name ext ++ [0]).length ≤ k := by
        rw [List.length_append, List.length_singleton]
        omega
      have hout : putBytes out 0 (fat16NameToStr name ext ++ [0]) k = out k := splice_outside (.inr hend)
      rw [heq]
      exact hout
  · rw [strcasecmp_eq_zero h.zero_not_mem h'.zero_not_mem]
    constructor
    · intro hlower
      have hsame := congrArg fat16StrToName (h.render_inj h' hlower)
      rw [h.parse, h'.parse] at hsame
      exact Option.some.inj hsame
    · intro hsame
      obtain ⟨rfl, rfl⟩ := Prod.mk.inj hsame
      rfl

/-- `README.TXT`. -/
def readmeName : Vector UInt8 8 := #v[0x52, 0x45, 0x41, 0x44, 0x4D, 0x45, 0x20, 0x20]
def readmeExt : Vector UInt8 3 := #v[0x54, 0x58, 0x54]

/-- `BOOTSECT` without an extension. -/
def bootsectName : Vector UInt8 8 := #v[0x42, 0x4F, 0x4F, 0x54, 0x53, 0x45, 0x43, 0x54]
def noExt : Vector UInt8 3 := blankExt

theorem names_roundTrip_readme :
    fat16StrToName (fat16NameToStr readmeName readmeExt) = some (readmeName, readmeExt) ∧
      fat16StrToName (fat16NameToStr bootsectName noExt) = some (bootsectName, noExt) ∧
      (strcasecmp (fat16NameToStr readmeName readmeExt) (fat16NameToStr bootsectName noExt) = 0 ↔
        (readmeName, readmeExt) = (bootsectName, noExt)) := by
  have hreadme : ShortName readmeName readmeExt := by
    constructor <;> decide +kernel
  have hbootsect : ShortName bootsectName noExt := by
    constructor <;> decide +kernel
  obtain ⟨hparse, -, hequal⟩ := names_roundTrip
  exact ⟨hparse _ _ hreadme, hparse _ _ hbootsect, hequal _ _ _ _ hreadme hbootsect⟩

end

end LizardOs.Vfs
