import LizardOs.Fat.ScansAgree
import LizardOs.Fat.UniqueNames

/-!
# Finding the name that was created

`fat16_create` encodes a string into the eleven bytes of an entry; `fat16_dir_find` and `fat16_lookup` decode
the entry and compare it with the string.  The string is found again exactly when it comes back from that
round trip: printable bytes only, no space, no dot without an extension.  The slot matters too.  The end
marker is a slot like any other for `fat16_dir_alloc_slot`, and nothing writes a new marker behind the entry
that replaces it, so the entries that stand behind the marker come into view.  `fat16Create_found_iff` puts
both together.
-/

namespace LizardOs.Fat

open LizardOs.Lib

variable {fs fs' : Fat16} {d : ℕ} {l : List ℕ} {loc : DirLoc} {ent : Fat16Directory}

/-! ### Names that do not come back -/

/-- A byte without letter case that occurs in one of two strings equal up to case occurs in the other. -/
theorem mem_of_map_tolower {s t : CStr} {c : UInt8} (h : s.map tolower = t.map tolower)
    (hc : c ∈ s) (hlow : tolower c = c) (honly : ∀ x, tolower x = c → x = c) : c ∈ t := by
  have hmem : tolower c ∈ t.map tolower := by
    rw [← h]
    exact List.mem_map_of_mem hc
  obtain ⟨x, hx, hxc⟩ := List.mem_map.mp hmem
  rw [← honly x (hxc.trans hlow)]
  exact hx

/-- Only a letter becomes a lower case letter. -/
theorem eq_of_tolower {d : UInt8} (hd : ¬(0x61 ≤ d ∧ d ≤ 0x7A)) (x : UInt8) (h : tolower x = d) : x = d := by
  rw [tolower] at h
  split at h
  · grind
  · exact h

theorem space_not_mem_fat16NameToStr (n : Vector UInt8 8) (e : Vector UInt8 3) :
    0x20 ∉ fat16NameToStr n e := by
  unfold fat16NameToStr
  intro h
  rcases List.mem_append.mp h with h | h
  · simp at h
  · split at h
    · simp at h
    · simp at h

/-- The bytes of a rendered name are those of the string, upper-cased, and a dot if it has an extension. -/
theorem NameParts.mem_render {s : CStr} {b e : List UInt8} (h : NameParts s b e) {c : UInt8}
    (hc : c ∈ fat16NameToStr (pad8 (b.map toUpper)) (pad3 (e.map toUpper))) :
    (∃ x ∈ b, c = toUpper x) ∨ (e ≠ [] ∧ (c = 0x2E ∨ ∃ x ∈ e, c = toUpper x)) := by
  unfold fat16NameToStr at hc
  rw [pad8_toList (by simpa using h.base_le), pad3_toList (by simpa using h.ext_le),
    List.mem_append] at hc
  rcases hc with hc | hc
  · left
    simp only [List.mem_filter, List.mem_append, List.mem_map, List.mem_replicate] at hc
    obtain ⟨⟨x, hx, rfl⟩ | ⟨-, rfl⟩, hne⟩ := hc
    · exact ⟨x, hx, rfl⟩
    · exact absurd hne (by decide)
  · right
    split at hc
    · rename_i hext
      have hne : e ≠ [] := by
        rintro rfl
        exact hext rfl
      refine ⟨hne, ?_⟩
      rcases List.mem_cons.mp hc with rfl | hc
      · exact .inl rfl
      · simp only [List.mem_filter, List.mem_append, List.mem_map, List.mem_replicate] at hc
        obtain ⟨⟨x, hx, rfl⟩ | ⟨-, rfl⟩, hne⟩ := hc
        · exact .inr ⟨x, hx, rfl⟩
        · exact absurd hne (by decide)
    · cases hc

theorem NameParts.mem_of_base {s : CStr} {b e : List UInt8} (h : NameParts s b e) {x : UInt8}
    (hx : x ∈ b) : x ∈ s := by
  apply mem_skipSlashes
  rcases h.split with ⟨heq, -⟩ | heq
  · rw [heq]; exact hx
  · rw [heq]; exact List.mem_append_left _ hx

theorem NameParts.mem_of_ext {s : CStr} {b e : List UInt8} (h : NameParts s b e) {x : UInt8}
    (hx : x ∈ e) : x ∈ s := by
  apply mem_skipSlashes
  rcases h.split with ⟨-, rfl⟩ | heq
  · cases hx
  · rw [heq]; exact List.mem_append_right _ (List.mem_cons_of_mem _ hx)

/-- **A name that is not clean does not name the entry made for it.** -/
theorem fat16FillEntry_unclean {now : DosStamp} {name : CStr} {attr : UInt8}
    (h : fat16FillEntry now name attr = some ent) (hz : 0 ∉ name) (hclean : cleanName name = false) :
    fat16NameCmp name ent ≠ 0 := by
  obtain ⟨b, e, hparts, rfl⟩ := fat16FillEntry_parts h
  have hzr : 0 ∉ fat16NameToStr (pad8 (b.map toUpper)) (pad3 (e.map toUpper)) := by
    intro hmem
    rcases hparts.mem_render hmem with ⟨x, hx, h0⟩ | ⟨-, h0 | ⟨x, hx, h0⟩⟩
    · exact toUpper_ne (by decide) (ne_of_mem_of_not_mem (hparts.mem_of_base hx) hz) h0.symm
    · exact absurd h0 (by decide)
    · exact toUpper_ne (by decide) (ne_of_mem_of_not_mem (hparts.mem_of_ext hx) hz) h0.symm
  intro hcmp
  have heq : (skipSlashes name).map tolower =
      (fat16NameToStr (pad8 (b.map toUpper)) (pad3 (e.map toUpper))).map tolower :=
    (strcasecmp_eq_zero (fun hc => hz (mem_skipSlashes hc)) hzr).mp hcmp
  have hspace : 0x20 ∉ skipSlashes name := fun hs =>
    space_not_mem_fat16NameToStr _ _ (mem_of_map_tolower heq hs (by decide) (eq_of_tolower (by decide)))
  have hspace' : 0x20 ∉ name := by
    intro hs
    rw [← List.takeWhile_append_dropWhile (p := (· = (0x2F : UInt8))) (l := name),
      List.mem_append] at hs
    rcases hs with hs | hs
    · exact absurd (List.mem_takeWhile_imp hs) (by decide)
    · exact hspace hs
  -- the other way not to be clean: a dot with nothing behind it, which is not rendered
  have hdot : (skipSlashes name).dropWhile (· ≠ 0x2E) = [0x2E] := by
    simpa [cleanName, hspace'] using hclean
  have hmem : (0x2E : UInt8) ∈ skipSlashes name :=
    (List.dropWhile_suffix _).subset (by rw [hdot]; simp)
  have he : e = [] := by
    rcases hparts.split with ⟨-, he⟩ | hsplit
    · exact he
    · have hb : ∀ c ∈ b, decide (c ≠ (0x2E : UInt8)) = true := by
        intro c hc
        simp only [decide_eq_true_eq]
        rintro rfl
        exact hparts.nodot hc
      rw [hsplit, List.dropWhile_append_of_pos hb] at hdot
      simpa using hdot
  rcases hparts.mem_render (mem_of_map_tolower heq hmem (by decide) (eq_of_tolower (by decide))) with
    ⟨x, hx, h0⟩ | ⟨hne, -⟩
  · exact toUpper_ne (by decide) (ne_of_mem_of_not_mem hx hparts.nodot) h0.symm
  · exact hne he

/-! ### Records of a stretch of slots -/

/-- The records of the entries in use among the slots, the first of which stands at byte `off`. -/
def Fat16.records (fs : Fat16) (off : ℕ) (ls : List DirLoc) : List Dirent :=
  (fs.entriesFrom off ls).map fs.direntAt

theorem records_cons (fs : Fat16) (off : ℕ) (loc : DirLoc) (ls : List DirLoc) :
    fs.records off (loc :: ls) =
      if fat16EntryValid (fs.entryAt loc) then
        direntOf (fs.entryAt loc) off :: fs.records (nextOffset off) ls
      else fs.records (nextOffset off) ls := by
  unfold Fat16.records
  rw [Fat16.entriesFrom]
  split
  · rfl
  · rfl

theorem records_append (fs : Fat16) (xs ys : List DirLoc) : ∀ off,
    fs.records off (xs ++ ys) = fs.records off xs ++ fs.records (nextOffset^[xs.length] off) ys := by
  induction xs with
  | nil => intro off; rfl
  | cons x xs ih =>
    intro off
    rw [List.cons_append, records_cons, records_cons, ih, List.length_cons, Function.iterate_succ_apply]
    split
    · rfl
    · rfl

theorem records_congr {ls : List DirLoc} (h : ∀ x ∈ ls, fs'.entryAt x = fs.entryAt x) : ∀ off,
    fs'.records off ls = fs.records off ls := by
  induction ls with
  | nil => intro off; rfl
  | cons x ls ih =>
    intro off
    rw [records_cons, records_cons, h x (by simp), ih fun y hy => h y (by simp [hy])]

theorem records_length (fs : Fat16) (off : ℕ) (ls : List DirLoc) :
    (fs.records off (fs.beforeEnd ls)).length = (fs.live ls).length := by
  rw [Fat16.records, List.length_map, entriesFrom_length]
  rfl

theorem beforeEnd_congr {ls : List DirLoc} (h : ∀ x ∈ ls, fs'.entryAt x = fs.entryAt x) :
    fs'.beforeEnd ls = fs.beforeEnd ls :=
  beforeEnd_of_firsts fun x hx => by rw [← Fat16.entryAt_first, h x hx, Fat16.entryAt_first]

theorem beforeEnd_append (fs : Fat16) {xs : List DirLoc} (h : ∀ x ∈ xs, fs.firstByte x ≠ FAT16_DIR_ENTRY_END)
    (ys : List DirLoc) : fs.beforeEnd (xs ++ ys) = xs ++ fs.beforeEnd ys := by
  unfold Fat16.beforeEnd
  rw [List.takeWhile_append_of_pos]
  intro x hx
  simpa using h x hx

/-! ### The directory after the entry was written -/

theorem reusable_eq_false_iff : fs.reusable loc = false ↔
    fs.firstByte loc ≠ FAT16_DIR_ENTRY_END ∧ fs.firstByte loc ≠ FAT16_DIR_ENTRY_DELETED := by
  simp [Fat16.reusable]

/-- The entries in use that stand behind the end marker, up to the next one, if the marker is the slot that
`fat16_dir_alloc_slot` hands out. -/
def Fat16.exposed (fs : Fat16) (ls : List DirLoc) : List DirLoc :=
  match ls.dropWhile fun loc => !fs.reusable loc with
  | [] => []
  | loc :: post => if fs.firstByte loc = FAT16_DIR_ENTRY_END then fs.live post else []

theorem exposed_of_taken {pre : List DirLoc} (h : ∀ x ∈ pre, fs.reusable x = false) :
    fs.exposed pre = [] := by
  have hdrop : pre.dropWhile (fun loc => !fs.reusable loc) = [] := by
    rw [List.dropWhile_eq_nil_iff]
    intro x hx
    simp [h x hx]
  rw [Fat16.exposed, hdrop]

theorem exposed_append {pre post : List DirLoc} (h : ∀ x ∈ pre, fs.reusable x = false)
    (hloc : fs.reusable loc = true) :
    fs.exposed (pre ++ loc :: post) =
      if fs.firstByte loc = FAT16_DIR_ENTRY_END then fs.live post else [] := by
  have hdrop : (pre ++ loc :: post).dropWhile (fun loc => !fs.reusable loc) = loc :: post := by
    rw [List.dropWhile_append_of_pos fun x hx => by simp [h x hx], List.dropWhile_cons]
    simp [hloc]
  rw [Fat16.exposed, hdrop]

/-- `fs'` is `fs` with the entry `ent` in the slot `loc` of the directory: a reused slot, or the first one of a
zeroed cluster appended to the directory. -/
structure Placed (fs fs' : Fat16) (d : ℕ) (l l' : List ℕ) (loc : DirLoc) (ent : Fat16Directory)
    (pre post : List DirLoc) : Prop where
  mounted : fs'.Mounted
  owns : fs'.Owns d l'
  slots : fs'.header.dirSlots d l' = pre ++ loc :: post
  taken : ∀ x ∈ pre, fs.reusable x = false
  before : ∀ x ∈ pre, fs'.entryAt x = fs.entryAt x
  self : fs'.entryAt loc = ent
  cases : (fs.header.dirSlots d l = pre ++ loc :: post ∧ fs.reusable loc = true ∧
      ∀ x ∈ post, fs'.entryAt x = fs.entryAt x) ∨
    (fs.header.dirSlots d l = pre ∧ ∀ x ∈ post, fs'.entryAt x = Fat16Directory.zero)

/-- Writing an entry into a slot keeps every chain. -/
theorem setEntry_owns (hs : fs.header.Sound) (hp : loc.Proper fs.header) (hown : fs.Owns d l)
    (ent : Fat16Directory) : (fs.setEntry loc ent).Owns d l :=
  hown.congr rfl fun _ hx => Fat16.setEntry_fatAt hs hp ent (hown.inside hx)

theorem Fat16.SlotFor.placed (hm : fs.Mounted) (hown : fs.Owns d l)
    (hslot : fs.SlotFor d l loc fs') (ent : Fat16Directory) :
    ∃ l' pre post, Placed fs (fs'.setEntry loc ent) d l l' loc ent pre post := by
  have hs := hm.sound
  rcases hslot with ⟨hfind, heq⟩ | ⟨hfind, hd0, x, a, hx, hmin, ha, hfree, rfl, rfl⟩
  · rw [heq]
    obtain ⟨hre, pre, post, hslots, hpre⟩ := List.find?_eq_some_iff_append.mp hfind
    have hproper : ∀ y ∈ fs.header.dirSlots d l, y.Proper fs.header := fun y => hown.proper hs
    have hnd := dirSlots_nodup hs hown
    rw [hslots] at hproper hnd
    have hp := hproper loc (by simp)
    have hne : ∀ y ∈ pre ++ post, y ≠ loc := by
      rintro y hy rfl
      exact (List.nodup_cons.mp (List.nodup_middle.mp hnd)).1 hy
    refine ⟨l, pre, post, Fat16.setEntry_mounted hm hp ent, setEntry_owns hs hp hown ent, hslots,
      fun y hy => by simpa using hpre y hy, ?_, Fat16.setEntry_entryAt_self _ _ _,
      .inl ⟨hslots, hre, ?_⟩⟩
    · intro y hy
      exact Fat16.setEntry_entryAt_ne hp (hproper y (by simp [hy])) (hne y (by simp [hy])) ent
    · intro y hy
      exact Fat16.setEntry_entryAt_ne hp (hproper y (by simp [hy])) (hne y (by simp [hy])) ent
  · have hheads : fs.Heads d l := by
      rcases hown with ⟨hz, -⟩ | hheads
      · exact absurd hz hd0
      · exact hheads
    have hal : a ∉ l := fun hmem => hheads.ne_free hmem hfree
    have hext := Fat16.Extends.of_grow hm hheads hx hmin ha hfree
    have hown' : (fs.grow x a).Owns d (l ++ [a]) := .inr hext.heads
    have hs' : (fs.grow x a).header.Sound := hext.mounted.sound
    obtain ⟨rest, hcons, -⟩ := clusterSlots_cons hs a
    have hslots : fs.header.dirSlots d (l ++ [a]) =
        fs.header.dirSlots d l ++ ⟨fs.header.clusterToLba a, 0⟩ ::
          ⟨fs.header.clusterToLba a, 32⟩ :: rest := by
      rw [dirSlots_append hd0, List.flatMap_singleton, hcons]
    have hproper : ∀ y ∈ fs.header.dirSlots d (l ++ [a]), y.Proper fs.header := by
      intro y hy
      rw [← Fat16.grow_header fs x a] at hy ⊢
      exact hown'.proper hs' hy
    have hnd := dirSlots_nodup hs' hown'
    rw [Fat16.grow_header, hslots] at hnd
    rw [hslots] at hproper
    have hp := hproper ⟨fs.header.clusterToLba a, 0⟩ (by simp)
    have hp' : (⟨fs.header.clusterToLba a, 0⟩ : DirLoc).Proper (fs.grow x a).header := by
      rw [Fat16.grow_header]
      exact hp
    have hne : ∀ y ∈ fs.header.dirSlots d l ++ ⟨fs.header.clusterToLba a, 32⟩ :: rest,
        y ≠ ⟨fs.header.clusterToLba a, 0⟩ := by
      rintro y hy rfl
      exact (List.nodup_cons.mp (List.nodup_middle.mp hnd)).1 hy
    refine ⟨l ++ [a], _, _, Fat16.setEntry_mounted hext.mounted hp' ent,
      setEntry_owns hs' hp' hown' ent, by rw [Fat16.setEntry_header, Fat16.grow_header]; exact hslots,
      ?_, ?_, Fat16.setEntry_entryAt_self _ _ _, .inr ⟨rfl, ?_⟩⟩
    · intro y hy
      simpa using List.find?_eq_none.mp hfind y hy
    · intro y hy
      rw [Fat16.setEntry_entryAt_ne hp (hproper y (List.mem_append_left _ hy))
        (hne y (List.mem_append_left _ hy)) ent]
      exact Fat16.grow_entryAt_other hs (hheads.inside (List.mem_of_getLast? hx)) hmin ha
        (fun _ hz => hheads.min_le hz) hal hy
    · intro y hy
      rw [Fat16.setEntry_entryAt_ne hp
        (hproper y (List.mem_append_right _ (List.mem_cons_of_mem _ hy)))
        (hne y (List.mem_append_right _ hy)) ent]
      apply Fat16.grow_entryAt hs
      rw [hcons]
      exact List.mem_cons_of_mem _ hy

namespace Placed

variable {l' : List ℕ} {pre post : List DirLoc} {name : CStr}

theorem pre_ne_end (h : Placed fs fs' d l l' loc ent pre post) {x : DirLoc} (hx : x ∈ pre) :
    fs.firstByte x ≠ FAT16_DIR_ENTRY_END := (reusable_eq_false_iff.mp (h.taken x hx)).1

/-- What a walk of the changed directory sees: the slots up to the new entry, and those behind it. -/
theorem beforeEnd_eq (h : Placed fs fs' d l l' loc ent pre post)
    (hfirst : ent.first ≠ FAT16_DIR_ENTRY_END) :
    fs'.beforeEnd (fs'.header.dirSlots d l') = pre ++ loc :: fs'.beforeEnd post := by
  have hfb : ∀ x ∈ pre ++ [loc], fs'.firstByte x ≠ FAT16_DIR_ENTRY_END := by
    intro x hx
    rw [← Fat16.entryAt_first]
    rcases List.mem_append.mp hx with hx | hx
    · rw [h.before x hx, Fat16.entryAt_first]
      exact h.pre_ne_end hx
    · rw [List.mem_singleton.mp hx, h.self]
      exact hfirst
  rw [h.slots, List.append_cons, beforeEnd_append _ hfb, ← List.append_cons]

/-- **The listing after an entry in use was written**: one record more, and those of the exposed entries. -/
theorem listing_eq (h : Placed fs fs' d l l' loc ent pre post) (hv : fat16EntryValid ent = true) :
    ∃ recs₁ recs₂ extra off,
      fs.listing (fs.header.dirSlots d l) = recs₁ ++ recs₂ ∧
      fs'.listing (fs'.header.dirSlots d l') = recs₁ ++ direntOf ent off :: (recs₂ ++ extra) ∧
      extra.length = (fs.exposed (fs.header.dirSlots d l)).length := by
  have hfirst := first_ne_end_of_valid hv
  have hnew : fs'.listing (fs'.header.dirSlots d l') =
      fs.records 0 pre ++ direntOf ent (nextOffset^[pre.length] 0) ::
        fs'.records (nextOffset (nextOffset^[pre.length] 0)) (fs'.beforeEnd post) := by
    show fs'.records 0 (fs'.beforeEnd _) = _
    rw [h.beforeEnd_eq hfirst, records_append, records_congr h.before, records_cons, h.self, if_pos hv]
  rcases h.cases with ⟨hslots, hre, hpost⟩ | ⟨hslots, hpost⟩
  · have hold : fs.listing (fs.header.dirSlots d l) =
        fs.records 0 pre ++ fs.records (nextOffset^[pre.length] 0) (fs.beforeEnd (loc :: post)) := by
      show fs.records 0 (fs.beforeEnd _) = _
      rw [hslots, beforeEnd_append _ (fun x hx => h.pre_ne_end hx), records_append]
    rw [hold, hnew, hslots, exposed_append h.taken hre]
    by_cases hend : fs.firstByte loc = FAT16_DIR_ENTRY_END
    · have hnone : fs.beforeEnd (loc :: post) = [] := by
        simp [Fat16.beforeEnd, hend]
      refine ⟨fs.records 0 pre, [], fs'.records _ (fs'.beforeEnd post), _, by rw [hnone]; rfl, rfl, ?_⟩
      rw [if_pos hend, records_length]
      unfold Fat16.live
      rw [beforeEnd_congr hpost, List.filter_congr]
      intro x hx
      rw [hpost x ((List.takeWhile_prefix _).subset hx)]
    · have hdel : fat16EntryValid (fs.entryAt loc) = false := by
        have hmark : fs.firstByte loc = FAT16_DIR_ENTRY_DELETED := by
          simpa [Fat16.reusable, hend] using hre
        exact fat16EntryValid_of_deleted ((fs.entryAt_first loc).trans hmark)
      have hsame : fs.records (nextOffset^[pre.length] 0) (fs.beforeEnd (loc :: post)) =
          fs'.records (nextOffset (nextOffset^[pre.length] 0)) (fs'.beforeEnd post) := by
        have hb : fs.beforeEnd (loc :: post) = loc :: fs.beforeEnd post := by
          simp [Fat16.beforeEnd, hend]
        have hcut : ∀ x ∈ fs.beforeEnd post, fs'.entryAt x = fs.entryAt x :=
          fun x hx => hpost x ((List.takeWhile_prefix _).subset hx)
        rw [hb, records_cons, hdel, if_neg (by decide), beforeEnd_congr hpost, records_congr hcut]
      refine ⟨fs.records 0 pre, _, [], nextOffset^[pre.length] 0, rfl, ?_, by rw [if_neg hend]; rfl⟩
      rw [List.append_nil, hsame]
  · have hold : fs.listing (fs.header.dirSlots d l) = fs.records 0 pre := by
      show fs.records 0 (fs.beforeEnd _) = _
      have hb := beforeEnd_append fs (fun x hx => h.pre_ne_end hx) []
      rw [List.append_nil] at hb
      rw [hslots, hb, show fs.beforeEnd [] = [] from rfl, List.append_nil]
    have hnone : fs'.beforeEnd post = [] := by
      cases post with
      | nil => rfl
      | cons x post =>
        have hx : fs'.firstByte x = FAT16_DIR_ENTRY_END := by
          rw [← Fat16.entryAt_first, hpost x (by simp)]
          rfl
        simp [Fat16.beforeEnd, hx]
    rw [hold, hnew, hnone, hslots, exposed_of_taken h.taken]
    exact ⟨fs.records 0 pre, [], [], _, (List.append_nil _).symm, rfl, rfl⟩

/-- **The name of an entry in use is found in its slot**, if the directory had no entry of that name. -/
theorem findIn_eq (h : Placed fs fs' d l l' loc ent pre post) (hv : fat16EntryValid ent = true)
    (hcmp : fat16NameCmp name ent = 0) (hnew : fs.findIn name (fs.header.dirSlots d l) = none) :
    fs'.findIn name (fs'.header.dirSlots d l') = some loc := by
  have hfirst := first_ne_end_of_valid hv
  have hpre : ∀ x ∈ pre, fat16EntryValid (fs.entryAt x) = true →
      fat16NameCmp name (fs.entryAt x) ≠ 0 := by
    intro x hx hvx
    have hlive : x ∈ fs.live (fs.header.dirSlots d l) := by
      have hb := beforeEnd_append fs (fun x hx => h.pre_ne_end hx)
      apply List.mem_filter.mpr
      refine ⟨?_, hvx⟩
      rcases h.cases with ⟨hslots, -⟩ | ⟨hslots, -⟩
      · rw [hslots, hb]
        exact List.mem_append_left _ hx
      · have hb := hb []
        rw [List.append_nil] at hb
        rw [hslots, hb]
        exact List.mem_append_left _ hx
    simpa using List.find?_eq_none.mp hnew x hlive
  have hskip : ((pre.filter fun x => fat16EntryValid (fs'.entryAt x)).find?
      fun x => decide (fat16NameCmp name (fs'.entryAt x) = 0)) = none := by
    rw [List.find?_eq_none]
    intro x hx
    obtain ⟨hx, hvx⟩ := List.mem_filter.mp hx
    rw [h.before x hx] at hvx ⊢
    simpa using hpre x hx hvx
  unfold Fat16.findIn Fat16.live
  rw [h.beforeEnd_eq hfirst, List.filter_append, List.find?_append, hskip, Option.none_or,
    List.filter_cons_of_pos (by rw [h.self]; exact hv), List.find?_cons_of_pos]
  rw [h.self]
  exact decide_eq_true hcmp

end Placed

/-! ### The round trip -/

/-- `fat16_readdir` from the start of the directory, into an array with room to spare, delivers `recs`. -/
def Fat16.Delivers (fs : Fat16) (dir : Inode) (recs : List Dirent) : Prop :=
  ∀ max : ℤ, recs.length < max → ∃ next, fat16Readdir dir 0 max fs = some ((next, recs), fs)

theorem fat16Readdir_ok (hm : fs.Mounted) {dir : Inode} (hown : fs.Owns dir.ent.cluster l) (max : ℤ) :
    ∃ next, fat16Readdir dir 0 max fs =
      some ((next, (fs.listing (fs.header.dirSlots dir.ent.cluster l)).take max.toNat), fs) := by
  have hwalk := fat16WalkDir_ok hm hown.dirChain (⟨0, 0, 0, max, []⟩ : ReaddirCtx)
    (readdirCb_pure _)
  have hout := readdirEnd_out fs (fs.header.dirSlots dir.ent.cluster l) 0 max
  rw [offered_zero] at hout
  refine ⟨(fs.readdirEnd (fs.header.dirSlots dir.ent.cluster l) 0 max).next, ?_⟩
  simp only [fat16Readdir, Nat.zero_mod, Prog.bind_apply, hwalk, Prog.obind_some, Prog.pure_apply]
  rw [(walkFold_beforeEnd fs fs.readdirStep _ _).1, Fat16.listing, ← List.map_take, ← hout]
  rfl

theorem delivers_iff (hm : fs.Mounted) {dir : Inode} (hown : fs.Owns dir.ent.cluster l)
    {recs : List Dirent} :
    fs.Delivers dir recs ↔ recs = fs.listing (fs.header.dirSlots dir.ent.cluster l) := by
  constructor
  · intro h
    have hmax : recs.length < max (recs.length : ℤ)
        (fs.listing (fs.header.dirSlots dir.ent.cluster l)).length + 1 := by
      omega
    obtain ⟨next, hrun⟩ := h _ hmax
    obtain ⟨next', hrun'⟩ := fat16Readdir_ok hm hown (max (recs.length : ℤ)
      (fs.listing (fs.header.dirSlots dir.ent.cluster l)).length + 1)
    rw [hrun, List.take_of_length_le (by omega)] at hrun'
    simp only [Option.some.injEq, Prod.mk.injEq] at hrun'
    exact hrun'.1.2
  · rintro rfl max hmax
    obtain ⟨next, hrun⟩ := fat16Readdir_ok hm hown max
    rw [List.take_of_length_le (by omega)] at hrun
    exact ⟨next, hrun⟩

/-- A successful `fat16_create` wrote the entry made for the name into a slot that was handed out. -/
theorem fat16Create_placed {now : DosStamp} {dir : Inode} {name : CStr} {ino : Inode}
    (hm : fs.Mounted) (hown : fs.Owns dir.ent.cluster l)
    (hrun : fat16Create now dir name fs = some (some ino, fs')) :
    fat16FillEntry now name FAT16_ATTR_ARCHIVE = some ino.ent ∧ ino = Inode.ofEntry ino.ent ino.loc ∧
      fs.findIn name (fs.header.dirSlots dir.ent.cluster l) = none ∧
      ∃ l' pre post, Placed fs fs' dir.ent.cluster l l' ino.loc ino.ent pre post := by
  by_cases href : fs.Refused dir.ent.cluster l name (fat16FillEntry now name FAT16_ATTR_ARCHIVE)
  · rw [fat16Create_refused hm hown href] at hrun
    cases hrun
  · simp only [Fat16.Refused, not_or, not_not, Bool.not_eq_true] at href
    obtain ⟨hro, hfill, hnew⟩ := href
    obtain ⟨ent, hent⟩ := Option.ne_none_iff_exists'.mp hfill
    rcases fat16Create_ok hm hown hro hent hnew with ⟨loc, fs₁, hslot, hok⟩ | ⟨-, hok⟩
    · rw [hok] at hrun
      simp only [Option.some.injEq, Prod.mk.injEq] at hrun
      obtain ⟨rfl, rfl⟩ := hrun
      exact ⟨hent, rfl, hnew, hslot.placed hm hown ent⟩
    · rw [hok] at hrun
      cases hrun

/-- **A created name is found again** in the slot just written, and the listing has one record more, exactly
when the name survives the round trip and the slot it went to exposes nothing. -/
theorem fat16Create_found_iff {now : DosStamp} {dir : Inode} {name : CStr} {ino : Inode}
    (hm : fs.Mounted) (hown : fs.Owns dir.ent.cluster l) (hz : 0 ∉ name)
    (hrun : fat16Create now dir name fs = some (some ino, fs')) :
    (fat16DirFind dir.ent.cluster name fs' = some (some (ino.loc, ino.ent), fs') ∧
      fat16Lookup dir name fs' = some (some ino, fs') ∧
      ∃ recs₁ recs₂ off, fs.Delivers dir (recs₁ ++ recs₂) ∧
        fs'.Delivers dir (recs₁ ++ direntOf ino.ent off :: recs₂)) ↔
    (name.all printable = true ∧ cleanName name = true ∧
      fs.exposed (fs.header.dirSlots dir.ent.cluster l) = []) := by
  obtain ⟨hent, hino, hnew, l', pre, post, hpl⟩ := fat16Create_placed hm hown hrun
  have hfind := fat16DirFind_ok hpl.mounted hpl.owns.dirChain name
  have hlook := fat16Lookup_path hpl.mounted.noFaults (hpl.owns.dirChain.dirPath hpl.mounted) name
  constructor
  · rintro ⟨hf, -, recs₁, recs₂, off, hd, hd'⟩
    obtain ⟨hv, hcmp⟩ : fat16EntryValid ino.ent = true ∧ fat16NameCmp name ino.ent = 0 := by
      rw [hf] at hfind
      simp only [Option.some.injEq, Prod.mk.injEq, and_true] at hfind
      obtain ⟨loc, hloc, heq⟩ := Option.map_eq_some_iff.mp hfind.symm
      obtain ⟨rfl, he⟩ := Prod.mk.inj heq
      have hlive := List.mem_of_find?_eq_some hloc
      have hnamed := List.find?_some hloc
      rw [← he]
      exact ⟨(List.mem_filter.mp hlive).2, of_decide_eq_true hnamed⟩
    refine ⟨?_, ?_, ?_⟩
    · by_contra hp
      rw [fat16FillEntry_unprintable hent (by simpa using hp)] at hv
      cases hv
    · by_contra hc
      exact fat16FillEntry_unclean hent hz (by simpa using hc) hcmp
    · obtain ⟨r₁, r₂, extra, off', hold, hnew', hlen⟩ := hpl.listing_eq hv
      rw [delivers_iff hm hown, hold] at hd
      rw [delivers_iff hpl.mounted hpl.owns, hnew'] at hd'
      have h1 := congrArg List.length hd
      have h2 := congrArg List.length hd'
      simp only [List.length_append, List.length_cons] at h1 h2
      apply List.eq_nil_of_length_eq_zero
      omega
  · rintro ⟨hp, hc, hex⟩
    have hv := (fat16FillEntry_child hent hp (.inl rfl)).1
    have hcmp := (fat16FillEntry_names hent hz hc).2
    rw [hpl.findIn_eq hv hcmp hnew, Option.map_some, hpl.self] at hfind hlook
    refine ⟨hfind, by rw [← hino] at hlook; exact hlook, ?_⟩
    obtain ⟨r₁, r₂, extra, off, hold, hnew', hlen⟩ := hpl.listing_eq hv
    rw [hex, List.length_nil] at hlen
    rw [List.eq_nil_of_length_eq_zero hlen, List.append_nil] at hnew'
    exact ⟨r₁, r₂, off, (delivers_iff hm hown).mpr hold.symm,
      (delivers_iff hpl.mounted hpl.owns).mpr hnew'.symm⟩

theorem fat16Create_found_iff_foo : ∃ ino fs',
    fat16Create ⟨0, 0⟩ rootInode [0x66, 0x6F, 0x6F] emptyVolume = some (some ino, fs') ∧
      fat16DirFind 0 [0x66, 0x6F, 0x6F] fs' = some (some (ino.loc, ino.ent), fs') := by
  have hm : emptyVolume.Mounted := smallVolume_mounted _ _ _
  have hslot : (emptyVolume.header.dirSlots 0 []).find? emptyVolume.reusable = some ⟨2, 0⟩ := by decide
  have hent : fat16FillEntry ⟨0, 0⟩ [0x66, 0x6F, 0x6F] FAT16_ATTR_ARCHIVE = some fooEntry := by decide
  have hrun := fat16Create_root hm rfl hent (by decide) hslot
  exact ⟨_, _, hrun, ((fat16Create_found_iff hm (.inl ⟨rfl, rfl⟩) (by decide) hrun).mpr
    ⟨by decide, by decide, by decide⟩).1⟩

/-- Creating `"a b"` succeeds, and the name is not found afterwards. -/
theorem not_fat16Create_found_space : ∃ ino fs',
    fat16Create ⟨0, 0⟩ rootInode [0x61, 0x20, 0x62] emptyVolume = some (some ino, fs') ∧
      emptyVolume.Mounted ∧ fat16DirFind 0 [0x61, 0x20, 0x62] fs' = some (none, fs') := by
  have hm : emptyVolume.Mounted := smallVolume_mounted _ _ _
  have hroot : emptyVolume.Owns 0 [] := .inl ⟨rfl, rfl⟩
  have hslot : (emptyVolume.header.dirSlots 0 []).find? emptyVolume.reusable = some ⟨2, 0⟩ := by decide
  have hent : fat16FillEntry ⟨0, 0⟩ [0x61, 0x20, 0x62] FAT16_ATTR_ARCHIVE =
      some (fileEntry [0x41, 0x20, 0x42] 0 0) := by decide
  have hrun := fat16Create_root hm rfl hent (by decide) hslot
  have hp := hroot.proper hm.sound (show (⟨2, 0⟩ : DirLoc) ∈ emptyVolume.header.dirSlots 0 [] by decide)
  have hm' := Fat16.setEntry_mounted hm hp (fileEntry [0x41, 0x20, 0x42] 0 0)
  refine ⟨_, _, hrun, hm, ?_⟩
  rw [fat16DirFind_ok hm' (.inl ⟨rfl, rfl⟩),
    show (emptyVolume.setEntry ⟨2, 0⟩ (fileEntry [0x41, 0x20, 0x42] 0 0)).findIn [0x61, 0x20, 0x62]
      ((emptyVolume.setEntry ⟨2, 0⟩ (fileEntry [0x41, 0x20, 0x42] 0 0)).header.dirSlots 0 []) = none
      by decide]
  rfl

end LizardOs.Fat
