import MathUnikernel.PmmSpec

/-!
# The bitmap that `pmm_init` builds
-/

namespace MathUnikernel.Pmm
open ByteBitmap

/-- A loop over the addresses `addr, addr + 4096, …` below `stop` reaches frame `f`. -/
def Visits (addr stop f : ℕ) : Prop := addr / 4096 ≤ f ∧ 4096 * f + addr % 4096 < stop

instance (addr stop f : ℕ) : Decidable (Visits addr stop f) :=
  inferInstanceAs (Decidable (_ ∧ _))

theorem visits_step {addr stop : ℕ} (h : addr < stop) (f : ℕ) :
    Visits addr stop f ↔ f = addr / 4096 ∨ Visits (addr + 4096) stop f := by
  unfold Visits
  omega

theorem not_visits_end {addr stop : ℕ} (h : ¬addr < stop) (f : ℕ) : ¬Visits addr stop f := by
  unfold Visits
  omega

/-! ## The loops over frames -/

/-- What holds before the loop and is kept at every frame it visits holds after it. -/
theorem forFrames_invariant (P : PmmContext → Prop) {body : PmmContext → ℕ → PmmContext}
    {stop addr : ℕ} (hbody : ∀ s f, Visits addr stop f → P s → P (body s f))
    {s s' : PmmContext} (hs : P s) (h : forFrames body stop addr s = some s') : P s' := by
  fun_induction forFrames body stop addr s with
  | case1 addr s hlt hwrap ih =>
    apply ih _ _ h
    · exact fun s f hf => hbody s f ((visits_step hlt f).mpr (.inr hf))
    · exact hbody s _ ((visits_step hlt _).mpr (.inl rfl)) hs
  | case2 addr s hlt hwrap => exact absurd h (by simp)
  | case3 addr s hlt => exact (Option.some.inj h) ▸ hs

theorem used_forFrames_freeFrame {stop addr : ℕ} {s s' : PmmContext}
    (h : forFrames freeFrame stop addr s = some s') (g : ℕ) :
    s'.used g = (s.used g && !decide (Visits addr stop g)) := by
  fun_induction forFrames freeFrame stop addr s with
  | case1 addr s hlt hwrap ih =>
    rw [ih h, used_freeFrame, Bool.and_assoc]
    congr 1
    rw [← Bool.not_or, ← Bool.decide_or]
    congr 1
    exact decide_eq_decide.mpr (visits_step hlt g).symm
  | case2 addr s hlt hwrap => exact absurd h (by simp)
  | case3 addr s hlt =>
    rw [← Option.some.inj h, decide_eq_false (not_visits_end hlt g)]
    simp

theorem used_forFrames_claimFrame {stop addr : ℕ} {s s' : PmmContext}
    (h : forFrames claimFrame stop addr s = some s') (g : ℕ) :
    s'.used g = (s.used g || decide (Visits addr stop g)) := by
  fun_induction forFrames claimFrame stop addr s with
  | case1 addr s hlt hwrap ih =>
    rw [ih h, used_claimFrame, Bool.or_assoc]
    congr 1
    rw [← Bool.decide_or]
    exact decide_eq_decide.mpr (visits_step hlt g).symm
  | case2 addr s hlt hwrap => exact absurd h (by simp)
  | case3 addr s hlt =>
    rw [← Option.some.inj h, decide_eq_false (not_visits_end hlt g)]
    simp

/-- A loop that does not come within a page of `2 ^ 64` ends. -/
theorem forFrames_isSome (body : PmmContext → ℕ → PmmContext) {stop : ℕ} (addr : ℕ) (s : PmmContext)
    (h : stop + 4096 ≤ 2 ^ 64) : (forFrames body stop addr s).isSome := by
  fun_induction forFrames body stop addr s with
  | case1 addr s hlt hwrap ih => exact ih
  | case2 addr s hlt hwrap => exact absurd hlt (by omega)
  | case3 addr s hlt => rfl

/-! ## The loop over the memory map -/

/-- The second loop of `pmm_init`. -/
def freeEntries (entries : List MemmapEntry) (s : PmmContext) : Option PmmContext :=
  entries.foldlM (fun s current =>
    if current.available then forFrames freeFrame current.ceiling current.base s else some s) s

/-- Frame `f` is reached through an available entry. -/
def Listed (entries : List MemmapEntry) (f : ℕ) : Prop :=
  ∃ e ∈ entries, e.available = true ∧ Visits e.base e.ceiling f

instance (entries : List MemmapEntry) (f : ℕ) : Decidable (Listed entries f) :=
  inferInstanceAs (Decidable (∃ e ∈ entries, _))

theorem listed_cons (e : MemmapEntry) (entries : List MemmapEntry) (f : ℕ) :
    Listed (e :: entries) f ↔
      (e.available = true ∧ Visits e.base e.ceiling f) ∨ Listed entries f := by
  simp [Listed]

theorem freeEntries_cons (e : MemmapEntry) (entries : List MemmapEntry) (s : PmmContext) :
    freeEntries (e :: entries) s =
      (if e.available then forFrames freeFrame e.ceiling e.base s else some s).bind
        (freeEntries entries) := rfl

theorem freeEntries_invariant (P : PmmContext → Prop) {entries : List MemmapEntry}
    (hbody : ∀ s f, Listed entries f → P s → P (freeFrame s f)) {s s' : PmmContext} (hs : P s)
    (h : freeEntries entries s = some s') : P s' := by
  induction entries generalizing s with
  | nil => exact (Option.some.inj h) ▸ hs
  | cons e entries ih =>
    rw [freeEntries_cons, Option.bind_eq_some_iff] at h
    obtain ⟨t, ht, h⟩ := h
    refine ih (fun s f hf => hbody s f ((listed_cons e entries f).mpr (.inr hf))) ?_ h
    split_ifs at ht with he
    · exact forFrames_invariant P
        (fun s f hf => hbody s f ((listed_cons e entries f).mpr (.inl ⟨he, hf⟩))) hs ht
    · exact (Option.some.inj ht) ▸ hs

theorem used_freeEntries {entries : List MemmapEntry} {s s' : PmmContext}
    (h : freeEntries entries s = some s') (g : ℕ) :
    s'.used g = (s.used g && !decide (Listed entries g)) := by
  induction entries generalizing s with
  | nil => rw [← Option.some.inj h]; simp [Listed]
  | cons e entries ih =>
    rw [freeEntries_cons, Option.bind_eq_some_iff] at h
    obtain ⟨t, ht, h⟩ := h
    rw [ih h]
    have hcons := listed_cons e entries g
    split_ifs at ht with he
    · rw [used_forFrames_freeFrame ht, Bool.and_assoc, ← Bool.not_or, ← Bool.decide_or]
      congr 2
      exact decide_eq_decide.mpr (by rw [hcons]; simp [he])
    · rw [← Option.some.inj ht]
      congr 2
      exact decide_eq_decide.mpr (by rw [hcons]; simp [he])

theorem freeEntries_isSome {entries : List MemmapEntry} (s : PmmContext)
    (h : ∀ e ∈ entries, e.available = true → e.ceiling + 4096 ≤ 2 ^ 64) :
    (freeEntries entries s).isSome := by
  induction entries generalizing s with
  | nil => rfl
  | cons e entries ih =>
    rw [freeEntries_cons]
    have hrest : ∀ t, (freeEntries entries t).isSome := fun t =>
      ih t fun e' he' => h e' (List.mem_cons_of_mem e he')
    split_ifs with he
    · obtain ⟨t, ht⟩ := Option.isSome_iff_exists.mp
        (forFrames_isSome freeFrame e.base s (h e List.mem_cons_self he))
      rw [ht]
      exact hrest t
    · exact hrest s

/-! ## The highest address -/

theorem le_getHighestUsableAddr_aux (entries : List MemmapEntry) (largest : ℕ) :
    largest ≤ entries.foldl (fun largestAddr current =>
      if current.available && decide (largestAddr < current.ceiling) then current.ceiling
      else largestAddr) largest ∧
    ∀ e ∈ entries, e.available = true → e.ceiling ≤ entries.foldl (fun largestAddr current =>
      if current.available && decide (largestAddr < current.ceiling) then current.ceiling
      else largestAddr) largest := by
  induction entries generalizing largest with
  | nil => simp
  | cons e entries ih =>
    simp only [List.foldl_cons]
    set next := if e.available && decide (largest < e.ceiling) then e.ceiling else largest with hnext
    obtain ⟨hle, hall⟩ := ih next
    have hlargest : largest ≤ next := by
      rw [hnext]
      split_ifs with hc
      · simp only [Bool.and_eq_true, decide_eq_true_eq] at hc
        exact hc.2.le
      · exact le_rfl
    refine ⟨hlargest.trans hle, fun e' he' hav => ?_⟩
    rcases List.mem_cons.mp he' with rfl | hmem
    · refine le_trans ?_ hle
      rw [hnext]
      split_ifs with hc
      · exact le_rfl
      · simpa [hav] using hc
    · exact hall e' hmem hav

theorem ceiling_le_getHighestUsableAddr {entries : List MemmapEntry} {e : MemmapEntry}
    (he : e ∈ entries) (hav : e.available = true) : e.ceiling ≤ getHighestUsableAddr entries :=
  (le_getHighestUsableAddr_aux entries 0).2 e he hav

theorem getHighestUsableAddr_lt_of {entries : List MemmapEntry} {bound : ℕ} (h0 : 0 < bound)
    (h : ∀ e ∈ entries, e.available = true → e.ceiling < bound) :
    getHighestUsableAddr entries < bound := by
  suffices hfold : ∀ largest < bound, entries.foldl (fun largestAddr current =>
      if current.available && decide (largestAddr < current.ceiling) then current.ceiling
      else largestAddr) largest < bound from hfold 0 h0
  induction entries with
  | nil => exact fun largest hlt => hlt
  | cons e entries ih =>
    intro largest hlt
    rw [List.foldl_cons]
    refine ih (fun e' he' => h e' (List.mem_cons_of_mem e he')) _ ?_
    split_ifs with hc
    · simp only [Bool.and_eq_true] at hc
      exact h e List.mem_cons_self hc.1
    · exact hlt

theorem getHighestUsableAddr_lt (entries : List MemmapEntry) :
    getHighestUsableAddr entries < 2 ^ 64 :=
  getHighestUsableAddr_lt_of (by omega) fun _ _ _ => Nat.mod_lt _ (by omega)

/-! ## The result -/

def totalFramesOf (entries : List MemmapEntry) : ℕ :=
  (getHighestUsableAddr entries + 4095) % 2 ^ 64 / 4096

def bitmapSizeOf (entries : List MemmapEntry) : ℕ := (totalFramesOf entries + 7) / 8

def bitmapPhysOf (entries : List MemmapEntry) : ℕ := placeBitmap entries (bitmapSizeOf entries)

/-- Frame `f` is claimed for the bitmap itself. -/
def Storage (entries : List MemmapEntry) (f : ℕ) : Prop :=
  Visits (bitmapPhysOf entries) ((bitmapPhysOf entries + bitmapSizeOf entries) % 2 ^ 64) f

instance (entries : List MemmapEntry) (f : ℕ) : Decidable (Storage entries f) :=
  inferInstanceAs (Decidable (Visits _ _ _))

/-- The context after the `memset`. -/
def afterMemset (entries : List MemmapEntry) (mem : ℕ → UInt8) : PmmContext where
  bitmap := fill (fun i => mem (bitmapPhysOf entries + i)) 0 (bitmapSizeOf entries) 0xff
  bitmapPhys := bitmapPhysOf entries
  bitmapSize := bitmapSizeOf entries
  totalFrames := totalFramesOf entries
  freeFrames := 0

theorem pmmInit_eq (entries : List MemmapEntry) (mem : ℕ → UInt8) :
    pmmInit entries mem =
      (freeEntries entries (afterMemset entries mem)).bind fun freed =>
        (forFrames claimFrame ((bitmapPhysOf entries + bitmapSizeOf entries) % 2 ^ 64)
          (bitmapPhysOf entries) freed).bind fun claimed => some (pmmInitSuccess, claimed) := rfl

/-- The two loops of a `pmm_init` that ends. -/
theorem exists_freed_of_pmmInit {entries : List MemmapEntry} {mem : ℕ → UInt8} {r : ℕ}
    {s : PmmContext} (h : pmmInit entries mem = some (r, s)) :
    ∃ freed, freeEntries entries (afterMemset entries mem) = some freed ∧
      forFrames claimFrame ((bitmapPhysOf entries + bitmapSizeOf entries) % 2 ^ 64)
        (bitmapPhysOf entries) freed = some s := by
  rw [pmmInit_eq, Option.bind_eq_some_iff] at h
  obtain ⟨freed, hfreed, h⟩ := h
  rw [Option.bind_eq_some_iff] at h
  obtain ⟨claimed, hclaimed, h⟩ := h
  obtain ⟨-, rfl⟩ : pmmInitSuccess = r ∧ claimed = s := by simpa using h
  exact ⟨freed, hfreed, hclaimed⟩

/-- What holds after the `memset` and is kept by both loops holds after `pmm_init`. -/
theorem pmmInit_invariant (P : PmmContext → Prop) {entries : List MemmapEntry} {mem : ℕ → UInt8}
    (hfree : ∀ s f, Listed entries f → P s → P (freeFrame s f))
    (hclaim : ∀ s f, Storage entries f → P s → P (claimFrame s f))
    (h0 : P (afterMemset entries mem)) {r : ℕ} {s : PmmContext}
    (h : pmmInit entries mem = some (r, s)) : P s := by
  obtain ⟨freed, hfreed, hclaimed⟩ := exists_freed_of_pmmInit h
  exact forFrames_invariant P hclaim (freeEntries_invariant P hfree h0 hfreed) hclaimed

/-- The parts of the context that `pmm_init` sets once. -/
structure Sized (entries : List MemmapEntry) (s : PmmContext) : Prop where
  totalFrames : s.totalFrames = totalFramesOf entries
  bitmapSize : s.bitmapSize = bitmapSizeOf entries
  bitmapPhys : s.bitmapPhys = bitmapPhysOf entries

theorem pmmInit_sized {entries : List MemmapEntry} {mem : ℕ → UInt8} {r : ℕ} {s : PmmContext}
    (h : pmmInit entries mem = some (r, s)) : Sized entries s :=
  pmmInit_invariant (Sized entries)
    (fun s f _ hs => ⟨by simpa using hs.1, by simpa using hs.2, by simpa using hs.3⟩)
    (fun s f _ hs => ⟨by simpa using hs.1, by simpa using hs.2, by simpa using hs.3⟩)
    ⟨rfl, rfl, rfl⟩ h

/-- Exactly the listed frames outside the bitmap's own storage are free. -/
theorem used_pmmInit {entries : List MemmapEntry} {mem : ℕ → UInt8} {r : ℕ} {s : PmmContext}
    (h : pmmInit entries mem = some (r, s)) {f : ℕ} (hf : f < 8 * s.bitmapSize) :
    s.used f = false ↔ Listed entries f ∧ ¬Storage entries f := by
  rw [(pmmInit_sized h).bitmapSize] at hf
  obtain ⟨freed, hfreed, hclaimed⟩ := exists_freed_of_pmmInit h
  have hset : (afterMemset entries mem).used f = true := by
    have := getBit_fill_ff (fun i => mem (bitmapPhysOf entries + i)) 0 (bitmapSizeOf entries) f
    rw [decide_eq_true (by omega), Bool.true_or] at this
    exact this
  rw [used_forFrames_claimFrame hclaimed, used_freeEntries hfreed, hset]
  simp [Storage]

theorem pmmInit_isSome {entries : List MemmapEntry} (mem : ℕ → UInt8)
    (h : getHighestUsableAddr entries + 4096 ≤ 2 ^ 64)
    (hb : bitmapPhysOf entries + bitmapSizeOf entries + 4096 ≤ 2 ^ 64) :
    ∃ s, pmmInit entries mem = some (pmmInitSuccess, s) := by
  have hentries : ∀ e ∈ entries, e.available = true → e.ceiling + 4096 ≤ 2 ^ 64 := fun e he hav =>
    (Nat.add_le_add_right (ceiling_le_getHighestUsableAddr he hav) _).trans h
  obtain ⟨freed, hfreed⟩ := Option.isSome_iff_exists.mp
    (freeEntries_isSome (afterMemset entries mem) hentries)
  have hstop : (bitmapPhysOf entries + bitmapSizeOf entries) % 2 ^ 64 + 4096 ≤ 2 ^ 64 := by omega
  obtain ⟨s, hs⟩ := Option.isSome_iff_exists.mp
    (forFrames_isSome claimFrame (bitmapPhysOf entries) freed hstop)
  exact ⟨s, by rw [pmmInit_eq, hfreed, Option.bind_some, hs, Option.bind_some]⟩

/-- What `pmm_init` leaves, for memory maps on which its loops end. -/
theorem pmmInit_facts {entries : List MemmapEntry} (mem : ℕ → UInt8)
    (h : getHighestUsableAddr entries + 4096 ≤ 2 ^ 64)
    (hb : bitmapPhysOf entries + bitmapSizeOf entries + 4096 ≤ 2 ^ 64) :
    ∃ s, pmmInit entries mem = some (pmmInitSuccess, s) ∧ s.bitmapSize = bitmapSizeOf entries ∧
      s.totalFrames = totalFramesOf entries ∧
      ∀ f < 8 * s.bitmapSize, s.used f = false ↔ Listed entries f ∧ ¬Storage entries f := by
  obtain ⟨s, hs⟩ := pmmInit_isSome mem h hb
  exact ⟨s, hs, (pmmInit_sized hs).bitmapSize, (pmmInit_sized hs).totalFrames,
    fun f hf => used_pmmInit hs hf⟩

theorem totalFramesOf_lt (entries : List MemmapEntry) : totalFramesOf entries < 2 ^ 52 := by
  unfold totalFramesOf
  omega

/-- A frame that is free after `pmm_init` lies below `total_frames`. -/
theorem lt_totalFrames_of_listed {entries : List MemmapEntry} {f : ℕ} (hf : Listed entries f)
    (hsize : f < 8 * bitmapSizeOf entries) : f < totalFramesOf entries := by
  obtain ⟨e, he, hav, hlo, hhi⟩ := hf
  have hle := ceiling_le_getHighestUsableAddr he hav
  have hlt := getHighestUsableAddr_lt entries
  unfold bitmapSizeOf at hsize
  unfold totalFramesOf at hsize ⊢
  omega

/-- No available entry reaches into the last 4095 bytes of the 64-bit address space. -/
def Bounded (entries : List MemmapEntry) : Prop :=
  ∀ e ∈ entries, e.available = true → e.base + e.length + 4095 < 2 ^ 64

instance (entries : List MemmapEntry) : Decidable (Bounded entries) :=
  inferInstanceAs (Decidable (∀ e ∈ entries, _))

theorem Bounded.ceiling_eq {entries : List MemmapEntry} (h : Bounded entries) {e : MemmapEntry}
    (he : e ∈ entries) (hav : e.available = true) : e.ceiling = e.base + e.length :=
  Nat.mod_eq_of_lt (by have := h e he hav; omega)

theorem Bounded.highest_lt {entries : List MemmapEntry} (h : Bounded entries) :
    getHighestUsableAddr entries + 4095 < 2 ^ 64 := by
  have hlt : getHighestUsableAddr entries < 2 ^ 64 - 4095 :=
    getHighestUsableAddr_lt_of (by norm_num) fun e he hav => by
      have := h e he hav
      rw [h.ceiling_eq he hav]
      omega
  omega

theorem Bounded.lt_totalFrames_of_listed {entries : List MemmapEntry} (h : Bounded entries) {f : ℕ}
    (hf : Listed entries f) : f < totalFramesOf entries := by
  obtain ⟨e, he, hav, hlo, hhi⟩ := hf
  have hle := ceiling_le_getHighestUsableAddr he hav
  have hlt := h.highest_lt
  unfold totalFramesOf
  omega

/-- The bitmap is placed inside a usable entry, or at address 0 when none is large enough. -/
theorem placeBitmap_cases (entries : List MemmapEntry) (size : ℕ) :
    (∃ e ∈ entries, e.type = .usable ∧ size ≤ e.length ∧ placeBitmap entries size = e.base) ∨
      placeBitmap entries size = 0 := by
  unfold placeBitmap
  cases hfind : entries.find? fun e => e.type = .usable && decide (size ≤ e.length) with
  | none => exact .inr rfl
  | some e =>
    have hmem := List.mem_of_find?_eq_some hfind
    have hsat := List.find?_some hfind
    simp only [Bool.and_eq_true, decide_eq_true_eq] at hsat
    exact .inl ⟨e, hmem, hsat.1, hsat.2, rfl⟩

theorem Bounded.lt_totalFrames_of_storage {entries : List MemmapEntry} (h : Bounded entries) {f : ℕ}
    (hf : Storage entries f) : f < totalFramesOf entries := by
  obtain ⟨hlo, hhi⟩ := hf
  rcases placeBitmap_cases entries (bitmapSizeOf entries) with ⟨e, he, hty, hlen, hbase⟩ | hzero
  · have hav : e.available = true := by simp [MemmapEntry.available, hty]
    have hb := h e he hav
    refine h.lt_totalFrames_of_listed ⟨e, he, hav, ?_, ?_⟩
    · rwa [← hbase]
    · rw [h.ceiling_eq he hav, ← hbase]
      unfold bitmapPhysOf at hhi
      omega
  · unfold bitmapPhysOf at hhi
    rw [hzero] at hhi
    unfold bitmapSizeOf at hhi
    omega

/-! ## A small machine: one page for the bitmap and one aligned 2 MiB block -/

theorem listed_pair (a la b lb f : ℕ) : Listed [⟨a, la, .usable⟩, ⟨b, lb, .usable⟩] f ↔
    Visits a ((a + la) % 2 ^ 64) f ∨ Visits b ((b + lb) % 2 ^ 64) f := by
  simp [Listed, MemmapEntry.available, MemmapEntry.ceiling]

def smallMap : List MemmapEntry :=
  [⟨0x1000, 0x1000, .usable⟩, ⟨0x200000, 0x200000, .usable⟩]

theorem listed_smallMap (f : ℕ) : Listed smallMap f ↔ f = 1 ∨ 512 ≤ f ∧ f < 1024 := by
  rw [smallMap, listed_pair]
  simp only [Visits]
  omega

theorem storage_smallMap (f : ℕ) : Storage smallMap f ↔ f = 1 := by
  have hphys : bitmapPhysOf smallMap = 0x1000 := by decide
  have hsize : bitmapSizeOf smallMap = 128 := by decide
  simp only [Storage, hphys, hsize, Visits]
  omega

theorem pmmInit_smallMap : ∃ s, pmmInit smallMap (fun _ => 0) = some (pmmInitSuccess, s) ∧
    s.bitmapSize = 128 ∧ s.totalFrames = 1024 ∧ ∀ f < 1024, s.used f = false ↔ 512 ≤ f := by
  obtain ⟨s, hs, hsize, htotal, hused⟩ := @pmmInit_facts smallMap (fun _ => 0) (by decide) (by decide)
  rw [show bitmapSizeOf smallMap = 128 by decide] at hsize
  refine ⟨s, hs, hsize, htotal.trans (by decide), fun f hf => ?_⟩
  rw [hused f (by omega), listed_smallMap, storage_smallMap]
  omega

/-- A block and its address on the small machine. -/
theorem pmmAlloc2mb_smallMap {s : PmmContext} (hsize : s.bitmapSize = 128)
    (hused : ∀ f < 1024, s.used f = false ↔ 512 ≤ f) :
    FreeGroup s 1 ∧ (∀ b < 1, ¬FreeGroup s b) ∧ (pmmAlloc2mb s).1 = 0x200000 := by
  have hfree : FreeGroup s 1 := ⟨by omega, fun f hlo hhi => (hused f (by omega)).mpr (by omega)⟩
  have hfirst : ∀ b < 1, ¬FreeGroup s b := by
    intro b hb h
    have := (hused (512 * b) (by omega)).mp (h.free (512 * b) le_rfl (by omega))
    omega
  exact ⟨hfree, hfirst, by rw [pmmAlloc2mb_of_first hfree hfirst]; rfl⟩

end MathUnikernel.Pmm
