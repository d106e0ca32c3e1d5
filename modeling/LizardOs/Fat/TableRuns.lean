import LizardOs.Fat.Mount

/-!
# Runs of table lookups and updates

Any sequence of `fat16_fat_get` and `fat16_fat_set` on a mounted volume is a sequence of lookups and updates of one map
from clusters to values, whether the table is held in RAM or not (`table_transparent`).  The map is what every FAT copy
holds of the clusters that were written.  A failing transfer in an update breaks this: the copy in RAM is only changed at
the end, so it stays behind the disk as soon as the first copy was written (`fat16FatSet_in_step_iff`).
-/

namespace LizardOs.Fat

open LizardOs.Lib

/-! ### Sequences -/

/-- A call of `fat16_fat_get` or of `fat16_fat_set`. -/
inductive TableOp where
  | get (cluster : ℕ)
  | set (cluster : ℕ) (value : UInt16)

/-- What the call answers. -/
inductive TableAnswer where
  | got (value : Option ℕ)
  | stored (ok : Bool)

def TableOp.cluster : TableOp → ℕ
  | .get c => c
  | .set c _ => c

/-- The clusters written by a sequence. -/
def written (ops : List TableOp) : List ℕ := ops.filterMap fun
  | .get _ => none
  | .set c _ => some c

def TableOp.run : TableOp → Fs TableAnswer
  | .get c => do
      let value ← fat16FatGet c
      pure (.got value)
  | .set c value => do
      let ok ← fat16FatSet c value.toNat
      pure (.stored ok)

/-- A sequence of calls with its answers. -/
def runTable : List TableOp → Fs (List TableAnswer)
  | [] => pure []
  | op :: ops => do
      let answer ← op.run
      let answers ← runTable ops
      pure (answer :: answers)

/-! ### The map behind them -/

/-- The map after a call. -/
def TableOp.apply (m : ℕ → ℕ) : TableOp → ℕ → ℕ
  | .get _ => m
  | .set c value => Function.update m c value.toNat

/-- What a map answers. -/
def TableOp.answer (m : ℕ → ℕ) : TableOp → TableAnswer
  | .get c => .got (some (m c))
  | .set _ _ => .stored true

/-- The answers of a map to a sequence. -/
def mapAnswers : (ℕ → ℕ) → List TableOp → List TableAnswer
  | _, [] => []
  | m, op :: ops => op.answer m :: mapAnswers (op.apply m) ops

/-- The map after a sequence. -/
def mapAfter (m : ℕ → ℕ) (ops : List TableOp) : ℕ → ℕ := ops.foldl TableOp.apply m

theorem TableOp.apply_congr (op : TableOp) {m m' : ℕ → ℕ} {d : ℕ} (h : m d = m' d) : op.apply m d = op.apply m' d := by
  cases op with
  | get c => exact h
  | set c value =>
    rw [TableOp.apply, TableOp.apply, Function.update_apply, Function.update_apply, h]

theorem mapAfter_congr {ops : List TableOp} {m m' : ℕ → ℕ} {d : ℕ} (h : m d = m' d) :
    mapAfter m ops d = mapAfter m' ops d := by
  induction ops generalizing m m' with
  | nil => exact h
  | cons op ops ih => exact ih (op.apply_congr h)

/-- What a sequence wrote does not depend on what was there before. -/
theorem mapAfter_written {ops : List TableOp} {d : ℕ} (h : d ∈ written ops) (m m' : ℕ → ℕ) :
    mapAfter m ops d = mapAfter m' ops d := by
  induction ops generalizing m m' with
  | nil => cases h
  | cons op ops ih =>
    cases op with
    | get c => exact ih h m m'
    | set c value =>
      rcases List.mem_cons.mp h with rfl | h
      · show mapAfter (Function.update m d value.toNat) ops d = mapAfter (Function.update m' d value.toNat) ops d
        refine mapAfter_congr ?_
        rw [Function.update_self, Function.update_self]
      · exact ih h _ _

/-- **One call** answers as the map does and leaves a volume that keeps the map after it.  Of the other FAT copies the
written entry is set and the others stay. -/
theorem TableOp.run_spec {fs : Fat16} {m : ℕ → ℕ} (h : fs.Keeps m) (op : TableOp) (hc : fs.header.InTable op.cluster) :
    ∃ fs', op.run fs = some (op.answer m, fs') ∧ fs'.header = fs.header ∧ fs'.Keeps (op.apply m) ∧
      ∀ f < fs.header.numFats.toNat, ∀ d, fs.header.InTable d → fs'.copyAt f d = op.apply (fs.copyAt f) d := by
  cases op with
  | get c =>
    have hin : fs.header.InTable c := hc
    refine ⟨fs, ?_, rfl, h, fun f _ d _ => rfl⟩
    simp only [TableOp.run, Prog.bind_apply, h.get hin, Prog.obind_some, Prog.pure_apply, TableOp.answer]
  | set c value =>
    have hin : fs.header.InTable c := hc
    refine ⟨fs.setFat c value.toNat, ?_, Fat16.setFat_header fs c value.toNat, h.set hin value, ?_⟩
    · simp only [TableOp.run, Prog.bind_apply, fat16FatSet_tabled h.io h.tabled, Prog.obind_some, Prog.pure_apply,
        TableOp.answer]
    · intro f hf d hd
      rw [Fat16.copyAt_setFat h.tabled hin value.toNat_lt hf hd, TableOp.apply, Function.update_apply]

/-- **A run** answers as the map does. -/
theorem runTable_spec {ops : List TableOp} : ∀ {fs : Fat16} {m : ℕ → ℕ}, fs.Keeps m →
    (∀ op ∈ ops, fs.header.InTable op.cluster) →
    ∃ fs', runTable ops fs = some (mapAnswers m ops, fs') ∧ fs'.header = fs.header ∧ fs'.Keeps (mapAfter m ops) ∧
      ∀ f < fs.header.numFats.toNat, ∀ d, fs.header.InTable d → fs'.copyAt f d = mapAfter (fs.copyAt f) ops d := by
  induction ops with
  | nil => exact fun {fs} {m} h _ => ⟨fs, rfl, rfl, h, fun f _ d _ => rfl⟩
  | cons op ops ih =>
    intro fs m h hops
    obtain ⟨fs₁, hop, hheader, hkeeps, hcopies⟩ := op.run_spec h (hops op List.mem_cons_self)
    obtain ⟨fs₂, hrun, hheader₂, hkeeps₂, hcopies₂⟩ := ih hkeeps fun o ho => by
      rw [hheader]
      exact hops o (List.mem_cons_of_mem _ ho)
    refine ⟨fs₂, ?_, hheader₂.trans hheader, hkeeps₂, ?_⟩
    · simp only [runTable, Prog.bind_apply, hop, Prog.obind_some, hrun, Prog.pure_apply, mapAnswers]
    · intro f hf d hd
      rw [hcopies₂ f (hheader ▸ hf) d (hheader ▸ hd)]
      exact mapAfter_congr (hcopies f hf d hd)

/-- **The table in RAM and the copies are transparent.**  On a mounted volume with sectors of 512 bytes and a FAT copy,
every sequence of lookups and updates answers as a map does that starts as the first FAT; without the table in RAM the
answers are the same; every cluster reads as the map has it, and what was written is in all copies. -/
theorem table_transparent {memory : Buf} {dev : Device} {fs : Fat16} {ops : List TableOp}
    (hmount : fat16Mount memory (some dev) = .mounted fs) (hbps : fs.header.bytesPerSector = 512)
    (hfats : 1 ≤ fs.header.numFats.toNat) (hio : fs.ioFaults = [])
    (hops : ∀ op ∈ ops, fs.header.InTable op.cluster) :
    ∃ fs' bare,
      runTable ops fs = some (mapAnswers fs.fatAt ops, fs') ∧
      runTable ops { fs with fatCache := none } = some (mapAnswers fs.fatAt ops, bare) ∧
      (∀ c, fs.header.InTable c → fat16FatGet c fs' = some (some (mapAfter fs.fatAt ops c), fs')) ∧
      ∀ c ∈ written ops, ∀ f < fs.header.numFats.toNat, fs'.copyAt f c = mapAfter fs.fatAt ops c := by
  have hkeeps : fs.Keeps fs.fatAt := ⟨⟨hbps, hfats⟩, fat16Mount_cacheAgrees hmount hbps, hio, fun c _ => rfl⟩
  have hbare : ({ fs with fatCache := none } : Fat16).Keeps fs.fatAt :=
    ⟨⟨hbps, hfats⟩, fun cache hcache => (by cases hcache), hio, fun c _ => rfl⟩
  obtain ⟨fs', hrun, hheader, hkeeps', hcopies⟩ := runTable_spec hkeeps hops
  obtain ⟨bare, hrun', -⟩ := runTable_spec hbare hops
  refine ⟨fs', bare, hrun, hrun', fun c hc => hkeeps'.get (hheader ▸ hc), ?_⟩
  intro c hc f hf
  have hin : fs.header.InTable c := by
    obtain ⟨op, hop, hset⟩ := List.mem_filterMap.mp hc
    cases op with
    | get d => cases hset
    | set d value =>
      obtain rfl := Option.some.inj hset
      exact hops _ hop
  rw [hcopies f hf c hin]
  exact mapAfter_written hc _ _

/-- A device with two FAT copies of one sector each. -/
def twoFatDevice : Device where
  disk := fun lba j =>
    if lba ≠ 0 then 0
    else
      match j with
      | 12 => 2 | 13 => 1 | 14 => 1 | 16 => 2 | 17 => 16 | 19 => 20 | 22 => 1
      | _ => 0
  readOnly := false
  ioFaults := []
  allocFaults := []

/-- The volume on `twoFatDevice`. -/
def twoFatVolume : Fat16 :=
  { twoFatDevice.volume (FatHeader.ofBytes (twoFatDevice.disk 0)) with
    fatCache := some (splice (fun _ => 0) 0 (twoFatDevice.disk 1) FAT16_SECTOR_SIZE) }

theorem twoFatDevice_mount : fat16Mount (fun _ => 0) (some twoFatDevice) = .mounted twoFatVolume := rfl

/-- Cluster 2 is set and read back, and cluster 3 stays free. -/
theorem table_transparent_twoFats : ∃ fs' bare,
    runTable [.set 2 0xFFF8, .get 2, .get 3] twoFatVolume =
      some ([.stored true, .got (some 0xFFF8), .got (some 0)], fs') ∧
    runTable [.set 2 0xFFF8, .get 2, .get 3] { twoFatVolume with fatCache := none } =
      some ([.stored true, .got (some 0xFFF8), .got (some 0)], bare) ∧
    fs'.copyAt 1 2 = 0xFFF8 := by
  have hops : ∀ op ∈ [TableOp.set 2 0xFFF8, .get 2, .get 3], twoFatVolume.header.InTable op.cluster := by decide
  obtain ⟨fs', bare, hrun, hbare, -, hcopies⟩ :=
    table_transparent twoFatDevice_mount (by decide) (by decide) rfl hops
  exact ⟨fs', bare, hrun, hbare, hcopies 2 (by decide) 1 (by decide)⟩

/-! ### An update with a failing transfer -/

/-- The loop over the copies in two parts. -/
theorem fatSetCopies_add (byte value j m : ℕ) : ∀ (fs : Fat16) (f : ℕ),
    fatSetCopies byte value (j + m) f fs = (fatSetCopies byte value j f fs).bind fun r =>
      if r.1 = true then fatSetCopies byte value m (f + j) r.2 else some (false, r.2) := by
  induction j with
  | zero =>
    intro fs f
    rw [Nat.zero_add]
    rfl
  | succ j ih =>
    intro fs f
    rw [Nat.succ_add]
    simp only [fatSetCopies, Prog.bind_apply, Prog.get_apply, Prog.obind_some]
    obtain ⟨buf, rest, hread, -⟩ := blkDevRead_cases fs
      (fs.header.fatStartLba + f * fs.header.fatSize16.toNat + byte / fs.header.bps)
    rw [hread]
    simp only [Prog.obind_some]
    cases buf with
    | none => rfl
    | some buf =>
      simp only [Prog.bind_apply]
      obtain ⟨rest', hwrite | hwrite⟩ := blkDevWrite_cases (fs.withFaults rest)
        (fs.header.fatStartLba + f * fs.header.fatSize16.toNat + byte / fs.header.bps)
        (splice buf (byte % fs.header.bps) (fatEntryBytes value) FAT16_FAT_ENTRY_SIZE)
      · rw [hwrite]
        rfl
      · rw [hwrite]
        simp only [Prog.obind_some, if_true]
        rw [ih, show f + 1 + j = f + (j + 1) by omega]

/-- The outcomes of the transfers when only transfer `k` fails, counted from 0: the copies are read and written in
turn. -/
def onlyFails (k : ℕ) : List (IoOp → ℕ → Bool) := List.replicate k noFault ++ [failure]

/-- **A failing transfer** ends the loop over the copies after those that were read and written before. -/
theorem fatSetCopies_onlyFails {fs : Fat16} {c value n k : ℕ} (hb : fs.header.bps = 512) (hk : k < 2 * n)
    (hf : fs.ioFaults = onlyFails k) :
    fatSetCopies (c * 2) value n 0 fs = some (false, (fs.setFatCopies c value (k / 2) 0).withFaults []) := by
  obtain ⟨m, hm⟩ : ∃ m, n = k / 2 + (m + 1) := ⟨n - k / 2 - 1, by omega⟩
  have hsplit : fs.ioFaults = List.replicate (2 * (k / 2)) noFault ++ (List.replicate (k % 2) noFault ++ [failure]) := by
    rw [hf, onlyFails, ← List.append_assoc, List.replicate_append_replicate, Nat.div_add_mod]
  have hbefore := fatSetCopies_noFault (c := c) value (k / 2) _ fs 0 hb hsplit
  rw [hm, fatSetCopies_add, hbefore, Prog.obind_some, if_pos rfl]
  generalize fs.setFatCopies c value (k / 2) 0 = fs₁
  have hrest : k % 2 = 0 ∨ k % 2 = 1 := by omega
  rcases hrest with hr | hr
  · -- the read of the copy fails
    rw [hr]
    have hread : ∀ sector, blkDevRead sector (fs₁.withFaults (List.replicate 0 noFault ++ [failure])) =
        some (none, fs₁.withFaults []) := fun sector => blkDevRead_failure rfl
    simp only [fatSetCopies, Prog.bind_apply, Prog.get_apply, Prog.obind_some, hread, Prog.pure_apply]
  · -- the copy is read, and the write fails
    rw [hr]
    have hread : ∀ sector, blkDevRead sector (fs₁.withFaults (List.replicate 1 noFault ++ [failure])) =
        some (some (fs₁.disk sector), fs₁.withFaults [failure]) := fun sector => blkDevRead_noFault rfl
    have hwrite : ∀ sector buf, blkDevWrite sector buf (fs₁.withFaults [failure]) =
        some (false, fs₁.withFaults []) := fun sector buf => blkDevWrite_failure rfl buf
    simp only [fatSetCopies, Prog.bind_apply, Prog.get_apply, Prog.obind_some, hread, hwrite, Prog.pure_apply,
      Bool.false_eq_true, if_false]

/-- The update with a failing transfer: the copies before it are written, the table in RAM is not. -/
theorem fat16FatSet_onlyFails {fs : Fat16} {c value k : ℕ} (hb : fs.header.bps = 512)
    (hk : k < 2 * fs.header.numFats.toNat) :
    fat16FatSet c value (fs.withFaults (onlyFails k)) =
      some (false, (fs.setFatCopies c value (k / 2) 0).withFaults []) := by
  have hrun : fatSetCopies (c * 2) value fs.header.numFats.toNat 0 (fs.withFaults (onlyFails k)) =
      some (false, ((fs.withFaults (onlyFails k)).setFatCopies c value (k / 2) 0).withFaults []) :=
    fatSetCopies_onlyFails hb hk rfl
  simp only [fat16FatSet, Prog.bind_apply, Prog.get_apply, Prog.obind_some, FAT16_FAT_ENTRY_SIZE, hrun,
    Fat16.withFaults_header, Bool.false_eq_true, if_false, Prog.pure_apply, Fat16.withFaults_setFatCopies,
    Fat16.withFaults_withFaults]

/-- What `fat16_fat_get` reports is what the first FAT copy holds, for every cluster number. -/
def Fat16.InStep (fs : Fat16) : Prop := ∀ c : UInt16, fat16FatGet c.toNat fs = some (some (fs.fatAt c.toNat), fs)

/-- Only the entries in RAM can differ from the disk. -/
theorem Fat16.inStep_iff {fs : Fat16} {cache : Buf} (hf : fs.ioFaults = []) (hb : fs.header.bps = 512)
    (hcache : fs.fatCache = some cache) :
    fs.InStep ↔ ∀ c : UInt16, fs.header.InTable c.toNat → (le16 cache (c.toNat * 2)).toNat = fs.fatAt c.toNat := by
  constructor
  · intro h c hc
    have hget := h c
    rw [fat16FatGet_fromCache hcache hc] at hget
    exact Option.some.inj (congrArg Prod.fst (Option.some.inj hget))
  · intro h c
    by_cases hc : fs.header.InTable c.toNat
    · rw [fat16FatGet_fromCache hcache hc, h c hc]
    · exact fat16FatGet_fromDisk hf hb (.inr hc)

/-- The first FAT copy after the first `n + 1` copies were updated. -/
theorem Fat16.fatAt_setFatCopies {fs : Fat16} {c value : ℕ} (ht : fs.header.Tabled) (hv : value < 65536) (n : ℕ) {d : ℕ}
    (hd : fs.header.InTable d) :
    (fs.setFatCopies c value (n + 1) 0).fatAt d = if d = c then value else fs.fatAt d := by
  obtain ⟨hheader, -⟩ := setFatCopies_frame c value (n + 1) fs 0
  have hbd := hd.entry_lt ht
  by_cases hc : fs.header.InTable c
  · -- all copies that are updated are updated alike
    have hbc := hc.entry_lt ht
    have hsec : d * 2 / 512 < fs.header.fatSize16.toNat := by omega
    have hsame : (fs.setFatCopies c value (n + 1) 0).copyAt 0 d = (fs.setFat c value).copyAt 0 d := by
      rw [copyAt, copyAt, hheader, setFat_header, setFat_disk_copy ht hc ht.fats hsec,
        setFatCopies_disk_copy c value (n + 1) fs 0 (Nat.le_refl 0) (by omega) hsec (by omega)]
    rw [← copyAt_zero, hsame, copyAt_zero, fatAt_setFat_inTable ht hc hv hd]
  · -- an entry outside the table lies behind the first copy
    have hout : ¬ (c + 1) * 2 ≤ fs.header.fatBytes := hc
    rw [ht.fatBytes_eq] at hout
    have hne : d ≠ c := fun hdc => hc (hdc ▸ hd)
    rw [if_neg hne, fatAt, fatAt, hheader, setFatCopies_disk]
    intro k _ _
    omega

/-- **When a failing update leaves the table in RAM in step with the disk.**  Of the transfers of a `fat16_fat_set` only
number `k` fails.  The call answers -1, and afterwards `fat16_fat_get` reports what the first FAT copy holds exactly when
the failing transfer was one of that copy, or the entry is not in RAM, or its value was the same before. -/
theorem fat16FatSet_in_step_iff {fs : Fat16} {cache : Buf} (ht : fs.header.Tabled) (hcache : fs.fatCache = some cache)
    (hagree : fs.CacheAgrees) (c value : UInt16) {k : ℕ} (hk : k < 2 * fs.header.numFats.toNat) :
    ∃ fs', fat16FatSet c.toNat value.toNat (fs.withFaults (onlyFails k)) = some (false, fs') ∧
      (fs'.InStep ↔ k < 2 ∨ ¬ fs.header.InTable c.toNat ∨ fs.fatAt c.toNat = value.toNat) := by
  refine ⟨_, fat16FatSet_onlyFails ht.bps_eq hk, ?_⟩
  obtain ⟨hheader, hfc, -⟩ := Fat16.setFatCopies_frame c.toNat value.toNat (k / 2) fs 0
  have hkept : ((fs.setFatCopies c.toNat value.toNat (k / 2) 0).withFaults []).fatCache = some cache := hfc.trans hcache
  rw [Fat16.inStep_iff rfl (by rw [Fat16.withFaults_header, hheader]; exact ht.bps_eq) hkept]
  simp only [Fat16.withFaults_header, Fat16.withFaults_fatAt, hheader]
  by_cases hfirst : k < 2
  · rw [show k / 2 = 0 by omega]
    exact ⟨fun _ => .inl hfirst, fun _ d hd => hagree.entry ht hcache hd⟩
  · obtain ⟨n, hn⟩ : ∃ n, k / 2 = n + 1 := ⟨k / 2 - 1, by omega⟩
    rw [hn]
    constructor
    · intro hstep
      by_cases hc : fs.header.InTable c.toNat
      · have hnew := hstep c hc
        rw [hagree.entry ht hcache hc, Fat16.fatAt_setFatCopies ht value.toNat_lt n hc, if_pos rfl] at hnew
        exact .inr (.inr hnew)
      · exact .inr (.inl hc)
    · intro hcases d hd
      rw [hagree.entry ht hcache hd, Fat16.fatAt_setFatCopies ht value.toNat_lt n hd]
      split
      · rename_i hdc
        rcases hcases with hlt | hout | hsame
        · exact absurd hlt hfirst
        · rw [hdc] at hd
          exact absurd hd hout
        · rw [hdc, hsame]
      · rfl

/-- The second copy of `twoFatVolume` cannot be read while cluster 2 is set: the table in RAM misses the new value. -/
theorem not_fat16FatSet_in_step_twoFats : ¬ ∃ fs',
    fat16FatSet 2 0xFFF8 (twoFatVolume.withFaults (onlyFails 2)) = some (false, fs') ∧ fs'.InStep := by
  rintro ⟨fs', hrun, hstep⟩
  rw [fat16FatSet_onlyFails (by decide) (by decide)] at hrun
  obtain ⟨-, rfl⟩ := Prod.mk.inj (Option.some.inj hrun)
  have hvalue := (Fat16.inStep_iff rfl (by decide) rfl).mp hstep 2 (by decide)
  exact absurd hvalue (by decide)

/-- The update of `twoFatVolume` stays in step when the first copy cannot be written. -/
theorem fat16FatSet_in_step_iff_twoFats : ∃ fs',
    fat16FatSet 2 0xFFF8 (twoFatVolume.withFaults (onlyFails 1)) = some (false, fs') ∧ fs'.InStep := by
  have hagree : twoFatVolume.CacheAgrees := fat16Mount_cacheAgrees twoFatDevice_mount (by decide)
  obtain ⟨fs', hrun, hiff⟩ := fat16FatSet_in_step_iff ⟨by decide, by decide⟩ rfl hagree 2 0xFFF8 (k := 1) (by decide)
  exact ⟨fs', hrun, hiff.mpr (.inl (by decide))⟩

end LizardOs.Fat
