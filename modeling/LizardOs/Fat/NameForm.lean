import LizardOs.Fat.Tree
import LizardOs.Fat.Namespace
import Mathlib.Tactic.IntervalCases

/-!
# Parsing and rendering 8.3 names

`fat16_str_to_name` splits a string at its first dot, upper-cases the two parts and pads them with spaces;
`fat16_name_to_str` drops every space and joins the parts again.  The lemmas say what a parsed name looks
like and when it makes an entry the directory loops can see.
-/

namespace LizardOs.Fat

open LizardOs.Lib

theorem printable_iff (c : UInt8) : printable c = true ↔ 0x20 ≤ c ∧ c ≤ 0x7E := by
  rw [printable, Bool.and_eq_true, decide_eq_true_eq, decide_eq_true_eq]

theorem printable_toUpper_iff (c : UInt8) : printable (toUpper c) = true ↔ printable c = true := by
  rw [printable_iff, printable_iff, toUpper]
  split
  · grind
  · rfl

theorem printable_toUpper {c : UInt8} (h : printable c = true) : printable (toUpper c) = true :=
  (printable_toUpper_iff c).mpr h

/-- Only a letter becomes an upper case letter. -/
theorem toUpper_ne {c d : UInt8} (hd : ¬(0x41 ≤ d ∧ d ≤ 0x5A)) (h : c ≠ d) : toUpper c ≠ d := by
  rw [toUpper]
  split
  · grind
  · exact h

theorem printable_not_sentinel {c : UInt8} (h : printable c = true) :
    c ≠ FAT16_DIR_ENTRY_DELETED ∧ c ≠ FAT16_DIR_ENTRY_END := by
  rw [printable_iff] at h
  constructor
  · rintro rfl
    exact absurd h.2 (by decide)
  · rintro rfl
    exact absurd h.1 (by decide)

/-- The two parts of a string that is an 8.3 name: base and extension, split at the first dot. -/
structure NameParts (s : CStr) (base ext : List UInt8) : Prop where
  split : (skipSlashes s = base ∧ ext = []) ∨ skipSlashes s = base ++ 0x2E :: ext
  nodot : 0x2E ∉ base
  base_pos : 0 < base.length
  base_le : base.length ≤ 8
  ext_le : ext.length ≤ 3

theorem fat16StrToName_parts {s : CStr} {name : Vector UInt8 8} {ext : Vector UInt8 3}
    (h : fat16StrToName s = some (name, ext)) :
    ∃ b e, NameParts s b e ∧ name = pad8 (b.map toUpper) ∧ ext = pad3 (e.map toUpper) := by
  unfold fat16StrToName at h
  have hsplit := List.takeWhile_append_dropWhile (p := (· ≠ (0x2E : UInt8))) (l := skipSlashes s)
  have hnodot : (0x2E : UInt8) ∉ (skipSlashes s).takeWhile (· ≠ 0x2E) := by
    intro hmem
    simpa using List.mem_takeWhile_imp hmem
  by_cases h8 : 8 < ((skipSlashes s).takeWhile (· ≠ 0x2E)).length
  · simp only [h8, if_true] at h
    cases h
  by_cases h0 : ((skipSlashes s).takeWhile (· ≠ 0x2E)).length = 0
  · simp only [h0, if_true] at h
    split at h <;> cases h
  simp only [h8, h0, if_false] at h
  cases htail : (skipSlashes s).dropWhile (· ≠ 0x2E) with
  | nil =>
    simp only [htail, Option.some.injEq, Prod.mk.injEq] at h
    obtain ⟨rfl, rfl⟩ := h
    rw [htail, List.append_nil] at hsplit
    exact ⟨_, [], ⟨.inl ⟨hsplit.symm, rfl⟩, hnodot, by omega, by omega, by simp⟩, rfl, rfl⟩
  | cons c e =>
    have hc : c = 0x2E := by
      have hhead := List.head?_dropWhile_not (· ≠ (0x2E : UInt8)) (skipSlashes s)
      rw [htail] at hhead
      simpa using hhead
    simp only [htail] at h
    by_cases h3 : 3 < e.length
    · simp only [h3, if_true] at h
      cases h
    · simp only [h3, if_false, Option.some.injEq, Prod.mk.injEq] at h
      obtain ⟨rfl, rfl⟩ := h
      rw [htail, hc] at hsplit
      exact ⟨_, e, ⟨.inr hsplit.symm, hnodot, by omega, by omega, by omega⟩, rfl, rfl⟩

/-- A fresh entry holds the padded parts of its name, in capitals. -/
theorem fat16FillEntry_parts {now : DosStamp} {name : CStr} {attr : UInt8} {ent : Fat16Directory}
    (h : fat16FillEntry now name attr = some ent) :
    ∃ b e, NameParts name b e ∧ ent = fat16EntryStamp now { Fat16Directory.zero with
      name := pad8 (b.map toUpper), extension := pad3 (e.map toUpper), attributes := attr } := by
  rw [fat16FillEntry] at h
  cases hparse : fat16StrToName name with
  | none =>
    rw [hparse] at h
    cases h
  | some p =>
    obtain ⟨n, x⟩ := p
    obtain ⟨b, e, hparts, rfl, rfl⟩ := fat16StrToName_parts hparse
    simp only [hparse, Option.some.injEq] at h
    exact ⟨b, e, hparts, h.symm⟩

theorem getD_printable {l : List UInt8} (h : l.all printable = true) (i : ℕ) :
    printable (l[i]?.getD 0x20) = true := by
  cases hi : l[i]? with
  | none => decide
  | some c => exact List.all_eq_true.mp h c (List.mem_of_getElem? hi)

theorem pad8_all {l : List UInt8} (h : l.all printable = true) :
    (pad8 l).toList.all printable = true := by
  simp [pad8, getD_printable h]

theorem pad3_all {l : List UInt8} (h : l.all printable = true) :
    (pad3 l).toList.all printable = true := by
  simp [pad3, getD_printable h]

theorem all_toUpper {l : List UInt8} (h : l.all printable = true) :
    (l.map toUpper).all printable = true := by
  rw [List.all_map, List.all_eq_true]
  intro c hc
  exact printable_toUpper (List.all_eq_true.mp h c hc)

/-- A string of printable bytes has printable parts. -/
theorem NameParts.printable {s : CStr} {b e : List UInt8} (h : NameParts s b e)
    (hs : s.all printable = true) : b.all printable = true ∧ e.all printable = true := by
  have hrest : (skipSlashes s).all Fat.printable = true := by
    rw [List.all_eq_true] at hs ⊢
    intro c hc
    exact hs c ((List.dropWhile_suffix _).subset hc)
  rcases h.split with ⟨heq, rfl⟩ | heq
  · rw [heq] at hrest
    exact ⟨hrest, rfl⟩
  · rw [heq, List.all_append, List.all_cons] at hrest
    simp only [Bool.and_eq_true] at hrest
    exact ⟨hrest.1, hrest.2.2⟩

/-- **A fresh entry is an entry in use**, and never `.` or `..`: its base name has no dot. -/
theorem fat16FillEntry_child {now : DosStamp} {name : CStr} {attr : UInt8} {ent : Fat16Directory}
    (h : fat16FillEntry now name attr = some ent) (hname : name.all printable = true)
    (hattr : attr = FAT16_ATTR_ARCHIVE ∨ attr = FAT16_ATTR_DIRECTORY) :
    fat16EntryValid ent = true ∧ fat16IsDot ent = false := by
  obtain ⟨b, e, hparts, rfl⟩ := fat16FillEntry_parts h
  obtain ⟨hb, he⟩ := hparts.printable hname
  obtain ⟨c, b', hcb⟩ : ∃ c b', b = c :: b' := by
    cases b with
    | nil => exact absurd hparts.base_pos (by simp)
    | cons c b' => exact ⟨c, b', rfl⟩
  have hc : printable (toUpper c) = true := by
    rw [hcb, List.all_cons, Bool.and_eq_true] at hb
    exact printable_toUpper hb.1
  have hfirst : (pad8 (b.map toUpper))[0] = toUpper c := by rw [hcb]; rfl
  have hdot : toUpper c ≠ 0x2E := by
    apply toUpper_ne (by decide)
    rintro rfl
    exact hparts.nodot (by rw [hcb]; simp)
  obtain ⟨hdel, hend⟩ := printable_not_sentinel hc
  refine ⟨?_, ?_⟩
  · have hattr' : attr ≠ FAT16_ATTR_LFN ∧ attr &&& FAT16_ATTR_VOLUME_ID = 0 := by
      rcases hattr with rfl | rfl
      · decide
      · decide
    simp only [fat16EntryValid, Fat16Directory.first, fat16EntryStamp, hfirst, hdel, hend, or_self,
      if_false, hattr'.1, hattr'.2, ne_eq, not_true_eq_false, pad8_all (all_toUpper hb),
      pad3_all (all_toUpper he), Bool.and_self]
  · have hname : ∀ v : Vector UInt8 8, v[0] = 0x2E → pad8 (b.map toUpper) ≠ v := by
      rintro v hv rfl
      exact hdot (hfirst.symm.trans hv)
    unfold fat16IsDot
    rw [Bool.or_eq_false_iff]
    exact ⟨decide_eq_false (hname _ rfl), decide_eq_false (hname _ rfl)⟩

theorem fat16FillEntry_attr {now : DosStamp} {name : CStr} {attr : UInt8} {ent : Fat16Directory}
    (h : fat16FillEntry now name attr = some ent) : ent.attributes = attr ∧ ent.cluster = 0 := by
  obtain ⟨b, e, -, rfl⟩ := fat16FillEntry_parts h
  exact ⟨rfl, rfl⟩

theorem zero_not_mem_of_printable {s : CStr} (h : s.all printable = true) : 0 ∉ s := by
  intro hmem
  exact absurd (List.all_eq_true.mp h 0 hmem) (by decide)

/-! ### Reading a parsed name back -/

theorem not_printable_toUpper {c : UInt8} (h : printable c = false) : printable (toUpper c) = false := by
  rw [Bool.eq_false_iff] at h ⊢
  exact fun hup => h ((printable_toUpper_iff c).mp hup)

theorem tolower_toUpper (c : UInt8) : tolower (toUpper c) = tolower c := by
  rw [toUpper]
  split
  · rw [tolower, tolower]
    grind
  · rfl

/-- A field filled from a string and padded with spaces. -/
theorem padded_eq {l p : List UInt8} (h : l.length ≤ p.length)
    (hp : ∀ i (hi : i < p.length), p[i] = l.getD i 0x20) :
    p = l ++ List.replicate (p.length - l.length) 0x20 := by
  apply List.ext_getElem
  · simp only [List.length_append, List.length_replicate]
    omega
  · intro i h1 h2
    rw [hp i h1, List.getD_eq_getElem?_getD]
    by_cases hil : i < l.length
    · rw [List.getElem_append_left hil, List.getElem?_eq_getElem hil, Option.getD_some]
    · rw [List.getElem_append_right (by omega), List.getElem_replicate,
        List.getElem?_eq_none (by omega), Option.getD_none]

theorem pad8_toList {l : List UInt8} (h : l.length ≤ 8) :
    (pad8 l).toList = l ++ List.replicate (8 - l.length) 0x20 := by
  apply padded_eq (p := (pad8 l).toList) h
  intro i hi
  have hi8 : i < 8 := by simpa using hi
  interval_cases i <;> rfl

theorem pad3_toList {l : List UInt8} (h : l.length ≤ 3) :
    (pad3 l).toList = l ++ List.replicate (3 - l.length) 0x20 := by
  apply padded_eq (p := (pad3 l).toList) h
  intro i hi
  have hi3 : i < 3 := by simpa using hi
  interval_cases i <;> rfl

/-- Dropping the spaces of a padded field leaves a field without spaces. -/
theorem filter_pad {l : List UInt8} (h : 0x20 ∉ l) (k : ℕ) :
    (l ++ List.replicate k 0x20).filter (· ≠ 0x20) = l := by
  rw [List.filter_append, List.filter_replicate]
  have hl : l.filter (· ≠ 0x20) = l := by
    rw [List.filter_eq_self]
    intro c hc
    simp only [decide_not, Bool.not_eq_true', decide_eq_false_iff_not]
    rintro rfl
    exact h hc
  rw [hl]
  simp

/-- **Rendering a parsed name** without spaces: base, and the extension behind a dot unless it is empty. -/
theorem fat16NameToStr_pad {b e : List UInt8} (hb : b.length ≤ 8) (he : e.length ≤ 3)
    (hbs : 0x20 ∉ b) (hes : 0x20 ∉ e) :
    fat16NameToStr (pad8 b) (pad3 e) = b ++ if e = [] then [] else 0x2E :: e := by
  unfold fat16NameToStr
  rw [pad8_toList hb, pad3_toList he, filter_pad hbs, filter_pad hes]
  cases e with
  | nil => simp [pad3]
  | cons c e =>
    have hc : c ≠ 0x20 := fun hc => hes (by simp [hc])
    simp [pad3, hc]

/-- A name that `fat16_name_to_str` gives back: no space in it, and no dot at its end that stands for an empty
extension. -/
def cleanName (s : CStr) : Bool :=
  decide (0x20 ∉ s) && decide ((skipSlashes s).dropWhile (· ≠ 0x2E) ≠ [0x2E])

theorem mem_skipSlashes {s : CStr} {c : UInt8} (h : c ∈ skipSlashes s) : c ∈ s :=
  (List.dropWhile_suffix _).subset h

/-- The parts of a clean name have no space, and a dot is followed by an extension. -/
theorem NameParts.clean {s : CStr} {b e : List UInt8} (h : NameParts s b e)
    (hs : cleanName s = true) :
    0x20 ∉ b ∧ 0x20 ∉ e ∧ skipSlashes s = b ++ if e = [] then [] else 0x2E :: e := by
  simp only [cleanName, Bool.and_eq_true, decide_eq_true_eq] at hs
  obtain ⟨hspace, hdot⟩ := hs
  have hspace' : 0x20 ∉ skipSlashes s := fun hc => hspace (mem_skipSlashes hc)
  rcases h.split with ⟨heq, rfl⟩ | heq
  · refine ⟨heq ▸ hspace', by simp, ?_⟩
    rw [heq]
    simp
  · rw [heq] at hspace' hdot
    simp only [List.mem_append, List.mem_cons, not_or] at hspace'
    refine ⟨hspace'.1, hspace'.2.2, ?_⟩
    have hne : e ≠ [] := by
      rintro rfl
      apply hdot
      have hb : ∀ c ∈ b, decide (c ≠ (0x2E : UInt8)) = true := by
        intro c hc
        simp only [decide_eq_true_eq]
        rintro rfl
        exact h.nodot hc
      rw [List.dropWhile_append_of_pos hb]
      decide
    rw [heq, if_neg hne]

/-- **A clean name names the entry made for it.** -/
theorem fat16FillEntry_names {now : DosStamp} {name : CStr} {attr : UInt8} {ent : Fat16Directory}
    (h : fat16FillEntry now name attr = some ent) (hz : 0 ∉ name) (hclean : cleanName name = true) :
    fat16NameToStr ent.name ent.extension = (skipSlashes name).map toUpper ∧
    fat16NameCmp name ent = 0 := by
  obtain ⟨b, e, hparts, rfl⟩ := fat16FillEntry_parts h
  obtain ⟨hbs, hes, hsplit⟩ := hparts.clean hclean
  have hup : ∀ l : List UInt8, 0x20 ∉ l → 0x20 ∉ l.map toUpper := by
    intro l hl hmem
    obtain ⟨c, hc, hcu⟩ := List.mem_map.mp hmem
    exact toUpper_ne (by decide) (ne_of_mem_of_not_mem hc hl) hcu
  have hrender : fat16NameToStr (pad8 (b.map toUpper)) (pad3 (e.map toUpper)) =
      (skipSlashes name).map toUpper := by
    rw [fat16NameToStr_pad (by simpa using hparts.base_le) (by simpa using hparts.ext_le)
      (hup b hbs) (hup e hes), hsplit, List.map_append]
    cases e with
    | nil => simp
    | cons c e =>
      simp
      decide
  refine ⟨hrender, ?_⟩
  have hz' : 0 ∉ skipSlashes name := fun hc => hz (mem_skipSlashes hc)
  have hzu : 0 ∉ (skipSlashes name).map toUpper := by
    intro hmem
    obtain ⟨c, hc, hcu⟩ := List.mem_map.mp hmem
    exact toUpper_ne (by decide) (ne_of_mem_of_not_mem hc hz') hcu
  show strcasecmp (skipSlashes name)
    (fat16NameToStr (pad8 (b.map toUpper)) (pad3 (e.map toUpper))) = 0
  rw [hrender, strcasecmp_eq_zero hz' hzu, List.map_map]
  simp only [Function.comp_def, tolower_toUpper]

/-- A name with an unprintable byte makes an entry the directory loops skip. -/
theorem fat16FillEntry_unprintable {now : DosStamp} {name : CStr} {attr : UInt8}
    {ent : Fat16Directory} (h : fat16FillEntry now name attr = some ent)
    (hname : name.all printable = false) : fat16EntryValid ent = false := by
  obtain ⟨b, e, hparts, rfl⟩ := fat16FillEntry_parts h
  obtain ⟨c, hc, hcp⟩ : ∃ c ∈ skipSlashes name, printable c = false := by
    rw [List.all_eq_false] at hname
    obtain ⟨c, hc, hcp⟩ := hname
    simp only [Bool.not_eq_true] at hcp
    rw [← List.takeWhile_append_dropWhile (p := (· = (0x2F : UInt8))) (l := name),
      List.mem_append] at hc
    rcases hc with hc | hc
    · have hslash := List.mem_takeWhile_imp hc
      simp only [decide_eq_true_eq] at hslash
      rw [hslash] at hcp
      exact absurd hcp (by decide)
    · exact ⟨c, hc, hcp⟩
  have hbe : c ∈ b ∨ c ∈ e := by
    rcases hparts.split with ⟨heq, rfl⟩ | heq
    · exact .inl (heq ▸ hc)
    · rw [heq, List.mem_append, List.mem_cons] at hc
      rcases hc with hc | rfl | hc
      · exact .inl hc
      · exact absurd hcp (by decide)
      · exact .inr hc
  have hfields : ((pad8 (b.map toUpper)).toList.all printable &&
      (pad3 (e.map toUpper)).toList.all printable) = false := by
    rw [Bool.and_eq_false_iff]
    rcases hbe with hb | he
    · left
      rw [pad8_toList (by simpa using hparts.base_le), List.all_append, Bool.and_eq_false_iff]
      refine .inl (List.all_eq_false.mpr ⟨toUpper c, List.mem_map_of_mem hb, ?_⟩)
      rw [not_printable_toUpper hcp]
      decide
    · right
      rw [pad3_toList (by simpa using hparts.ext_le), List.all_append, Bool.and_eq_false_iff]
      refine .inl (List.all_eq_false.mpr ⟨toUpper c, List.mem_map_of_mem he, ?_⟩)
      rw [not_printable_toUpper hcp]
      decide
  unfold fat16EntryValid
  split
  · rfl
  · split
    · rfl
    · split
      · rfl
      · exact hfields

/-- A fresh entry never looks like an end marker. -/
theorem fat16FillEntry_first {now : DosStamp} {name : CStr} {attr : UInt8} {ent : Fat16Directory}
    (h : fat16FillEntry now name attr = some ent) (hz : 0 ∉ name) :
    ent.first ≠ FAT16_DIR_ENTRY_END := by
  obtain ⟨b, e, hparts, rfl⟩ := fat16FillEntry_parts h
  cases b with
  | nil => exact absurd hparts.base_pos (by simp)
  | cons c b =>
    have hc : c ∈ skipSlashes name := by
      rcases hparts.split with ⟨heq, -⟩ | heq
      · simp [heq]
      · simp [heq]
    show toUpper c ≠ 0
    exact toUpper_ne (by decide) fun hc0 => hz (mem_skipSlashes (hc0 ▸ hc))

end LizardOs.Fat
