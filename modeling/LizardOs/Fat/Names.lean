import LizardOs.Fat.Types

/-!
# Directory entries and 8.3 names

The first part of `fat16_helpers.c`: which slots hold an entry in use, how an 8.3 name pair is rendered and
parsed, and the case-insensitive comparison between a path component and an entry.  A C string is the list
of its bytes before the terminating NUL.
-/

namespace LizardOs.Fat

open LizardOs.Lib

/-- A C string: the bytes before the NUL. -/
abbrev CStr := List UInt8

theorem name_pos : 0 < 8 := by decide

theorem ext_pos : 0 < 3 := by decide

/-- The first byte of the name, which doubles as the slot's status. -/
def Fat16Directory.first (e : Fat16Directory) : UInt8 := getElem e.name 0 name_pos

/-- A byte of printable ASCII. -/
def printable (c : UInt8) : Bool := decide (0x20 ≤ c) && decide (c ≤ 0x7E)

/-- `fat16_entry_valid`: the slot holds an in-use 8.3 entry. -/
def fat16EntryValid (e : Fat16Directory) : Bool :=
  if e.first = FAT16_DIR_ENTRY_DELETED ∨ e.first = FAT16_DIR_ENTRY_END then false
  else if e.attributes = FAT16_ATTR_LFN then false
  else if e.attributes &&& FAT16_ATTR_VOLUME_ID ≠ 0 then false
  else e.name.toList.all printable && e.extension.toList.all printable

/-- `fat16_name_to_str`: the unpadded `NAME.EXT`. -/
def fat16NameToStr (name : Vector UInt8 8) (ext : Vector UInt8 3) : CStr :=
  name.toList.filter (· ≠ 0x20) ++
    if getElem ext 0 ext_pos ≠ 0x20 then 0x2E :: ext.toList.filter (· ≠ 0x20) else []

/-- `to_upper`. -/
def toUpper (c : UInt8) : UInt8 := if 0x61 ≤ c ∧ c ≤ 0x7A then c - 32 else c

/-- `tolower` of `nolibc/string.c`. -/
def tolower (c : UInt8) : UInt8 := if 0x41 ≤ c ∧ c ≤ 0x5A then c + 32 else c

/-- `while (*in == '/') in++`. -/
def skipSlashes (s : CStr) : CStr := s.dropWhile (· = 0x2F)

/-- Eight bytes, space-padded. -/
def pad8 (l : CStr) : Vector UInt8 8 :=
  #v[l.getD 0 0x20, l.getD 1 0x20, l.getD 2 0x20, l.getD 3 0x20,
     l.getD 4 0x20, l.getD 5 0x20, l.getD 6 0x20, l.getD 7 0x20]

/-- Three bytes, space-padded. -/
def pad3 (l : CStr) : Vector UInt8 3 := #v[l.getD 0 0x20, l.getD 1 0x20, l.getD 2 0x20]

/-- `fat16_str_to_name`: the upper-cased, space-padded fields, or `none` when the string is no 8.3 name.
The base runs up to the first `.`, the extension is everything after it. -/
def fat16StrToName (s : CStr) : Option (Vector UInt8 8 × Vector UInt8 3) :=
  let rest := skipSlashes s
  let base := rest.takeWhile (· ≠ 0x2E)
  let tail := rest.dropWhile (· ≠ 0x2E)
  if 8 < base.length then none
  else if base.length = 0 then none
  else
    match tail with
    | [] => some (pad8 (base.map toUpper), pad3 [])
    | _ :: ext =>
        if 3 < ext.length then none
        else some (pad8 (base.map toUpper), pad3 (ext.map toUpper))

/-- `strcasecmp`: the difference of the first bytes that differ once lower-cased. -/
def strcasecmp : CStr → CStr → ℤ
  | [], [] => 0
  | [], b :: _ => -(tolower b).toNat
  | a :: _, [] => (tolower a).toNat
  | a :: s, b :: t =>
      if tolower a = tolower b then strcasecmp s t else (tolower a).toNat - (tolower b).toNat

/-- `fat16_name_cmp`: zero when the path names the entry. -/
def fat16NameCmp (path : CStr) (e : Fat16Directory) : ℤ :=
  strcasecmp (skipSlashes path) (fat16NameToStr e.name e.extension)

/-- `"."`, padded. -/
abbrev dotName : Vector UInt8 8 := #v[0x2E, 0x20, 0x20, 0x20, 0x20, 0x20, 0x20, 0x20]

/-- `".."`, padded. -/
abbrev dotdotName : Vector UInt8 8 := #v[0x2E, 0x2E, 0x20, 0x20, 0x20, 0x20, 0x20, 0x20]

/-- Three spaces. -/
abbrev blankExt : Vector UInt8 3 := #v[0x20, 0x20, 0x20]

/-- `fat16_is_dot`: the `.` and `..` entries. -/
def fat16IsDot (e : Fat16Directory) : Bool := decide (e.name = dotName) || decide (e.name = dotdotName)

/-- `is_dir` of `fat16.c`. -/
def isDir (e : Fat16Directory) : Bool := decide (e.attributes &&& FAT16_ATTR_DIRECTORY ≠ 0)

/-- The wall clock packed by `fat16_dos_now` into FAT date and time words. -/
structure DosStamp where
  date : UInt16
  time : UInt16
deriving DecidableEq

/-- `fat16_entry_stamp`. -/
def fat16EntryStamp (now : DosStamp) (e : Fat16Directory) : Fat16Directory :=
  { e with
    creationTimeTenths := 0
    creationTime := now.time
    creationDate := now.date
    lastAccessDate := now.date
    writeTime := now.time
    writeDate := now.date }

/-- `fat16_entry_touch`. -/
def fat16EntryTouch (now : DosStamp) (e : Fat16Directory) : Fat16Directory :=
  { e with
    writeTime := now.time
    writeDate := now.date
    lastAccessDate := now.date }

/-- `fat16_fill_entry`: a fresh, time-stamped entry with the given name and attributes. -/
def fat16FillEntry (now : DosStamp) (nameStr : CStr) (attributes : UInt8) :
    Option Fat16Directory :=
  match fat16StrToName nameStr with
  | none => none
  | some (name, ext) =>
      some (fat16EntryStamp now
        { Fat16Directory.zero with name := name, extension := ext, attributes := attributes })

/-! ### What the comparison compares -/

theorem tolower_eq_zero {c : UInt8} : tolower c = 0 ↔ c = 0 := by
  unfold tolower
  split
  · rename_i h
    constructor
    · intro hz
      have h1 : (c + 32).toNat = 0 := by rw [hz]; rfl
      have h2 := UInt8.le_iff_toNat_le.mp h.1
      have h3 := UInt8.le_iff_toNat_le.mp h.2
      rw [UInt8.toNat_add] at h1
      simp at h1 h2 h3
      omega
    · rintro rfl
      exact absurd h (by decide)
  · exact Iff.rfl

/-- `strcasecmp` answers zero exactly on strings equal up to letter case. -/
theorem strcasecmp_eq_zero {s t : CStr} (hs : 0 ∉ s) (ht : 0 ∉ t) :
    strcasecmp s t = 0 ↔ s.map tolower = t.map tolower := by
  induction s generalizing t with
  | nil =>
    cases t with
    | nil => simp [strcasecmp]
    | cons b t =>
      have hb : tolower b ≠ 0 := fun h => ht (by simp [tolower_eq_zero.mp h])
      have hb' : (tolower b).toNat ≠ 0 := fun h => hb (UInt8.toNat.inj h)
      simp only [strcasecmp, List.map_nil, List.map_cons]
      constructor
      · intro h; omega
      · intro h; cases h
  | cons a s ih =>
    have ha : tolower a ≠ 0 := fun h => hs (by simp [tolower_eq_zero.mp h])
    have ha' : (tolower a).toNat ≠ 0 := fun h => ha (UInt8.toNat.inj h)
    cases t with
    | nil =>
      simp only [strcasecmp, List.map_nil, List.map_cons]
      constructor
      · intro h; omega
      · intro h; cases h
    | cons b t =>
      simp only [strcasecmp, List.map_cons, List.cons.injEq]
      split
      · rename_i hab
        rw [ih (fun h => hs (List.mem_cons_of_mem _ h)) (fun h => ht (List.mem_cons_of_mem _ h))]
        simp [hab]
      · rename_i hab
        have hne : (tolower a).toNat ≠ (tolower b).toNat := fun h => hab (UInt8.toNat.inj h)
        constructor
        · intro h; omega
        · intro h; exact absurd h.1 hab

end LizardOs.Fat
