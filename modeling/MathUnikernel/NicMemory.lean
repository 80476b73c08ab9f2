import MathUnikernel.I219
import MathUnikernel.MapTables
import MathUnikernel.PmmSearch

/-!
# The receive memory of the network cards

What `rtl8139_init` and `i219_init` program into the cards and what the drivers keep pointers to.
The interrupts that they set up are a subject of their own.
-/

namespace MathUnikernel.Nic
open Pmm Vmm RadixTree

def vmmCacheDisable : ℕ := 1 <<< 4

/-- The last value written to a register. -/
def register (writes : List (ℕ × ℕ)) (offset : ℕ) : Option ℕ := writes.reverse.lookup offset

/-- The physical address that a pointer into the direct map is for. -/
def behind (hhdmOffset pointer : ℕ) : ℕ := (pointer + (2 ^ 64 - hhdmOffset)) % 2 ^ 64

/-! ## `rtl8139_init` -/

/-- The register of the receive buffer's address. -/
def rbStart : ℕ := 0x30

/-- The machine, `rx_buffer`, and the writes to the ports from BAR0 on. -/
structure RtlInit where
  m : Machine
  rxBuffer : ℕ
  writes : List (ℕ × ℕ)

/-- The 16 KiB are zero-filled, frame by frame. -/
def clearBuffer (physAddr : ℕ) (m : Machine) : Machine :=
  (List.range 4).foldl (fun m k => m.clearFrame (physAddr + 4096 * k)) m

/-- The writes to the ports. -/
def bufferWrites (physAddr : ℕ) : List (ℕ × ℕ) :=
  [(0x37, 0x10), (0x50, 0xc0), (rbStart, physAddr % 2 ^ 32), (0x44, 0x8f), (0x37, 0x0c),
    (0x50, 0x00), (0x3C, 1)]

/-- `rtl8139_init`, with a card that leaves its reset. -/
def rtl8139Init (hhdmOffset : ℕ) (m : Machine) : RtlInit :=
  let (physAddr, pmm) := pmmAllocContiguous m.pmm 4
  { m := clearBuffer physAddr { m with pmm }
    rxBuffer := (physAddr + hhdmOffset) % 2 ^ 64
    writes := bufferWrites physAddr }

/-! ## `i219_init` -/

def rdbal : ℕ := 0x2800
def rdbah : ℕ := 0x2804
def rdlen : ℕ := 0x2808
def rdh : ℕ := 0x2810
def rdt : ℕ := 0x2818
def rctl : ℕ := 0x0100
def ims : ℕ := 0x00D0

/-- The words of descriptor `i`: its address, and the rest with the status in byte 4. -/
def descriptorWord (i : Fin I219.numRxDesc) (k : Fin 2) : Fin 512 :=
  ⟨2 * i + k, by
    have hi : i.val < 32 := i.isLt
    omega⟩

/-- `rx_ring_virt[i].addr = buf_phys` and `rx_ring_virt[i].status = 0`. -/
def setDescriptor (m : Machine) (rxRingPhys : ℕ) (i : Fin I219.numRxDesc) (bufPhys : ℕ) : Machine :=
  let m := m.setEntry rxRingPhys (descriptorWord i 0) bufPhys
  m.setEntry rxRingPhys (descriptorWord i 1)
    (m.entry rxRingPhys (descriptorWord i 1) &&& 0xFFFFFF00FFFFFFFF)

/-- The loop over the descriptors; it yields `rx_buffers_virt`. -/
def fillRing (hhdmOffset rxRingPhys : ℕ) :
    List (Fin I219.numRxDesc) → Machine → List ℕ × Machine
  | [], m => ([], m)
  | i :: is, m =>
    let (bufPhys, pmm) := pmmAlloc m.pmm
    let m := { m.note [.alloc m.pmm] with pmm }
    let (rest, m) := fillRing hhdmOffset rxRingPhys is (setDescriptor m rxRingPhys i bufPhys)
    ((bufPhys + hhdmOffset) % 2 ^ 64 :: rest, m)

/-- The machine, the pointers, and the writes to the registers that concern reception. -/
structure I219Init where
  m : Machine
  rxRingVirt : ℕ
  rxBuffersVirt : List ℕ
  writes : List (ℕ × ℕ)

/-- `bar0_raw & ~0xFULL`. -/
def mmioBasePhys (bar0Raw : ℕ) : ℕ := bar0Raw &&& 0xFFFFFFFFFFFFFFF0

def mmioFlags : ℕ := vmmPresent ||| vmmWriteable ||| vmmCacheDisable

/-- The writes from `RDBAL` on. -/
def ringWrites (rxRingPhys : ℕ) : List (ℕ × ℕ) :=
  [(rdbal, rxRingPhys % 2 ^ 32), (rdbah, rxRingPhys / 2 ^ 32 % 2 ^ 32),
    (rdlen, I219.numRxDesc * 16), (rdh, 0), (rdt, I219.numRxDesc - 1),
    (rctl, 1 <<< 1 ||| 1 <<< 15 ||| 0 <<< 16 ||| 1 <<< 26), (ims, 1 <<< 7)]

/-- `i219_init` from the request for the ring on. -/
def ringInit (hhdmOffset : ℕ) (m : Machine) : I219Init :=
  let (rxRingPhys, pmm) := pmmAlloc m.pmm
  let (rxBuffersVirt, m) := fillRing hhdmOffset rxRingPhys (List.finRange I219.numRxDesc)
    { m.note [.alloc m.pmm] with pmm }
  { m
    rxRingVirt := (rxRingPhys + hhdmOffset) % 2 ^ 64
    rxBuffersVirt
    writes := ringWrites rxRingPhys }

/-- `i219_init`, with a card that leaves its reset. -/
def i219Init (hhdmOffset : ℕ) (m : Machine) (bar0Raw : ℕ) : Option I219Init := do
  let m ← vmmMapRange m ((mmioBasePhys bar0Raw + hhdmOffset) % 2 ^ 64) (mmioBasePhys bar0Raw)
    (128 * 1024) mmioFlags
  return ringInit hhdmOffset m

/-! ## What the cards are given -/

/-- Distinct frames other than frame 0, taken since `m` and not for tables. -/
structure Owned (m m' : Machine) (frames : List ℕ) : Prop where
  nodup : frames.Nodup
  nonzero : ∀ f ∈ frames, f ≠ 0
  free : ∀ f ∈ frames, m.pmm.used f = false
  used : ∀ f ∈ frames, m'.pmm.used f = true
  apart : ∀ f ∈ frames, ¬m'.IsTable f

/-- The 16 KiB that the card writes, with addresses of 32 bits, are those at `rx_buffer`. -/
structure RtlDma (hhdmOffset : ℕ) (m : Machine) (r : RtlInit) : Prop where
  programmed : ∃ base, register r.writes rbStart = some base ∧
    ∀ i, i < 4 * 4096 → (base + i) % 2 ^ 32 = behind hhdmOffset r.rxBuffer + i
  aligned : behind hhdmOffset r.rxBuffer % 4096 = 0
  owned : Owned m r.m
    ((List.range 4).map fun k => physAddrToIndex (behind hhdmOffset r.rxBuffer) + k)

/-- The card finds the ring where the driver does, and in its descriptors the buffers that the
driver reads. -/
structure I219Dma (hhdmOffset : ℕ) (m : Machine) (r : I219Init) : Prop where
  ring : ∃ low high, register r.writes rdbal = some low ∧ register r.writes rdbah = some high ∧
    low + high * 2 ^ 32 = behind hhdmOffset r.rxRingVirt
  buffers : ((List.finRange I219.numRxDesc).map fun i =>
      r.m.entry (behind hhdmOffset r.rxRingVirt) (descriptorWord i 0)) =
    r.rxBuffersVirt.map (behind hhdmOffset)
  aligned : ∀ p ∈ r.rxRingVirt :: r.rxBuffersVirt, behind hhdmOffset p % 4096 = 0
  owned : Owned m r.m
    ((r.rxRingVirt :: r.rxBuffersVirt).map fun p => physAddrToIndex (behind hhdmOffset p))

theorem behind_pointer {hhdmOffset physAddr : ℕ} (hhhdm : hhdmOffset < 2 ^ 64)
    (hphys : physAddr < 2 ^ 64) :
    behind hhdmOffset ((physAddr + hhdmOffset) % 2 ^ 64) = physAddr := by
  unfold behind
  omega

/-! ## Exhaustion -/

/-- No request for a frame will find one. -/
def Exhausted (s : PmmContext) : Prop :=
  ∀ f, f < s.totalFrames → f < 8 * s.bitmapSize → s.used f = true

theorem Exhausted.not_firstFree {s : PmmContext} (h : Exhausted s) {f : ℕ} : ¬FirstFree s f := by
  intro hf
  have hused := h f hf.lt_total hf.lt_size
  rw [hf.free] at hused
  exact Bool.false_ne_true hused

theorem pmmAlloc_of_exhausted {s : PmmContext} (h : Exhausted s) : pmmAlloc s = (0, s) := by
  rcases pmmAlloc_cases s with ⟨f, hf, -⟩ | ⟨-, halloc⟩
  · exact absurd hf h.not_firstFree
  · exact halloc

/-- Every request so far was answered, or none will be. -/
def Settled (m : Machine) : Prop := m.Answered ∨ Exhausted m.pmm

/-- A request and nothing else. -/
theorem Settled.alloc {m m' : Machine} (h : Settled m) (hpmm : m'.pmm = (pmmAlloc m.pmm).2)
    (hlog : ∀ t, .alloc t ∈ m'.log → .alloc t ∈ m.log ∨ t = m.pmm) : Settled m' := by
  rcases pmmAlloc_cases m.pmm with ⟨f, hf, -⟩ | ⟨hall, halloc⟩
  · rcases h with hanswered | hexhausted
    · refine .inl fun t ht => ?_
      rcases hlog t ht with hold | rfl
      · exact hanswered t hold
      · exact ⟨f, hf⟩
    · exact absurd hf hexhausted.not_firstFree
  · right
    rw [hpmm, halloc]
    exact hall

theorem Settled.runCalls (calls : List MapCall) {m : Machine} (h : Settled m) :
    Settled (runCalls calls m) := by
  apply requests_runCalls _ _ calls h
  · intro m m' h hpmm hlog
    exact h.alloc hpmm fun t ht => (hlog t).mp ht
  · intro m m' h hpmm hlog
    rw [Settled, Machine.Answered, hpmm, hlog]
    exact h

/-- A state that a driver can be started in: the calls of `vmm_init` were served, or the frames have
run out. -/
structure Running (m : Machine) : Prop where
  totalFrames_le : m.pmm.totalFrames ≤ 2 ^ 40
  le_size : m.pmm.totalFrames ≤ 8 * m.pmm.bitmapSize
  served : (m.Answered ∧ Paged m) ∨ Exhausted m.pmm

theorem Running.settled {m : Machine} (h : Running m) : Settled m := h.served.imp_left And.left

theorem Running.of_free {m : Machine} (h : Running m) {f : ℕ} (hlt : f < m.pmm.totalFrames)
    (hfree : m.pmm.used f = false) : m.Answered ∧ Paged m := by
  apply h.served.resolve_right
  intro hexhausted
  rw [hexhausted f hlt (hlt.trans_le h.le_size)] at hfree
  exact absurd hfree (by simp)

/-- The state after `vmm_init`, whatever frames there were. -/
theorem running_runCalls {m : Machine} (hlog : m.log = []) (hT : m.pmm.totalFrames ≤ 2 ^ 40)
    (hsize : m.pmm.totalFrames ≤ 8 * m.pmm.bitmapSize) {calls : List MapCall}
    (hpages : ∀ c ∈ calls, c.huge = false) : Running (runCalls calls (vmmPrepPml4 m)) := by
  have hpmm : (vmmPrepPml4 m).pmm = (pmmAlloc m.pmm).2 := rfl
  have htaken : Taken m.pmm (runCalls calls (vmmPrepPml4 m)).pmm := by
    apply pmm_runCalls (P := Taken m.pmm) (fun s hs => hs.pmmAlloc) calls
    rw [hpmm]
    exact (Taken.refl m.pmm).pmmAlloc
  have hsettled : Settled (vmmPrepPml4 m) := by
    have hstart : Settled m := .inl fun t ht => by
      rw [hlog] at ht
      exact absurd ht List.not_mem_nil
    apply hstart.alloc hpmm
    intro t ht
    rw [vmmPrepPml4_log, hlog] at ht
    exact .inr (by simpa using ht)
  refine ⟨?_, ?_, ?_⟩
  · rw [htaken.totalFrames]
    exact hT
  · rw [htaken.totalFrames, htaken.bitmapSize]
    exact hsize
  -- a request in vain means that all frames are in use from then on
  rcases hsettled.runCalls calls with hanswered | hexhausted
  · left
    obtain ⟨f, hprepared⟩ := prepared_of_answered hT
      (hanswered.of_prefix (log_runCalls calls (vmmPrepPml4 m)))
    exact ⟨hanswered, (hprepared.paged.runCalls hpages hanswered).1⟩
  · exact .inr hexhausted

theorem running_of_vmmInit {hhdmOffset : ℕ} {kernel : KernelAddress} {entries : List MemmapEntry}
    (hends : BootEnds entries) {s : PmmContext} (hT : s.totalFrames ≤ 2 ^ 40)
    (hsize : s.totalFrames ≤ 8 * s.bitmapSize) {mem : ℕ → Fin 512 → ℕ} {r : ℕ} {m : Machine}
    (hm : vmmInit hhdmOffset kernel entries (bootMachine s mem) = some (r, m)) : Running m := by
  rw [vmmInit_eq _ _ hends] at hm
  rw [← (Prod.mk.inj (Option.some.inj hm)).2]
  exact running_runCalls rfl hT hsize fun c hc => huge_of_mem_bootCalls hc

/-! ## One frame after the other -/

/-- A request that returns an address takes a free frame. -/
theorem clearCount_of_pmmAlloc {s : PmmContext} (hsize : s.totalFrames ≤ 8 * s.bitmapSize)
    (hr : (pmmAlloc s).1 ≠ 0) : clearCount (pmmAlloc s).2 + 1 = clearCount s := by
  rcases pmmAlloc_cases s with ⟨f, hf, -⟩ | ⟨-, halloc⟩
  · have hmem : f ∈ (Finset.range s.totalFrames).filter fun f => s.used f = false :=
      Finset.mem_filter.mpr ⟨Finset.mem_range.mpr hf.lt_total, hf.free⟩
    obtain ⟨g, -, hcount⟩ := exists_firstFree hsize (Finset.card_pos.mpr ⟨f, hmem⟩)
    exact hcount
  · rw [halloc] at hr
    exact absurd rfl hr

theorem pmmAlloc_lt (s : PmmContext) : (pmmAlloc s).1 < 2 ^ 64 := by
  rcases pmmAlloc_cases s with ⟨f, -, halloc⟩ | ⟨-, halloc⟩
  · rw [halloc]
    exact Nat.mod_lt _ (by norm_num)
  · rw [halloc]
    norm_num

/-- One round of the loop over the descriptors. -/
def bufferRound (m : Machine) (ring : ℕ) (i : Fin I219.numRxDesc) : Machine :=
  setDescriptor { m.note [.alloc m.pmm] with pmm := (pmmAlloc m.pmm).2 } ring i (pmmAlloc m.pmm).1

@[simp] theorem bufferRound_pmm (m : Machine) (ring : ℕ) (i : Fin I219.numRxDesc) :
    (bufferRound m ring i).pmm = (pmmAlloc m.pmm).2 := rfl

theorem fillRing_cons (hhdmOffset ring : ℕ) (i : Fin I219.numRxDesc) (is : List (Fin I219.numRxDesc))
    (m : Machine) : fillRing hhdmOffset ring (i :: is) m =
      (((pmmAlloc m.pmm).1 + hhdmOffset) % 2 ^ 64 ::
        (fillRing hhdmOffset ring is (bufferRound m ring i)).1,
        (fillRing hhdmOffset ring is (bufferRound m ring i)).2) := rfl

/-- After the request for the ring. -/
def ringMachine (m : Machine) : Machine :=
  { m.note [.alloc m.pmm] with pmm := (pmmAlloc m.pmm).2 }

@[simp] theorem ringMachine_pmm (m : Machine) : (ringMachine m).pmm = (pmmAlloc m.pmm).2 := rfl

theorem register_rdbal (rxRingPhys : ℕ) :
    register (ringWrites rxRingPhys) rdbal = some (rxRingPhys % 2 ^ 32) := rfl

theorem register_rdbah (rxRingPhys : ℕ) :
    register (ringWrites rxRingPhys) rdbah = some (rxRingPhys / 2 ^ 32 % 2 ^ 32) := rfl

theorem ringInit_eq (hhdmOffset : ℕ) (m : Machine) : ringInit hhdmOffset m =
    { m := (fillRing hhdmOffset (pmmAlloc m.pmm).1 (List.finRange I219.numRxDesc)
        (ringMachine m)).2
      rxRingVirt := ((pmmAlloc m.pmm).1 + hhdmOffset) % 2 ^ 64
      rxBuffersVirt := (fillRing hhdmOffset (pmmAlloc m.pmm).1 (List.finRange I219.numRxDesc)
        (ringMachine m)).1
      writes := ringWrites (pmmAlloc m.pmm).1 } := by
  unfold ringInit ringMachine
  generalize pmmAlloc m.pmm = request
  obtain ⟨rxRingPhys, pmm⟩ := request
  dsimp only

/-- Buffers with addresses took as many free frames. -/
theorem length_le_clearCount {hhdmOffset ring : ℕ} (hhhdm : hhdmOffset < 2 ^ 64)
    {is : List (Fin I219.numRxDesc)} {m : Machine}
    (hsize : m.pmm.totalFrames ≤ 8 * m.pmm.bitmapSize)
    (hne : ∀ p ∈ (fillRing hhdmOffset ring is m).1, behind hhdmOffset p ≠ 0) :
    is.length ≤ clearCount m.pmm := by
  induction is generalizing m with
  | nil => exact Nat.zero_le _
  | cons i is ih =>
    rw [fillRing_cons] at hne
    have hfirst := hne _ List.mem_cons_self
    rw [behind_pointer hhhdm (pmmAlloc_lt m.pmm)] at hfirst
    have hcount := clearCount_of_pmmAlloc hsize hfirst
    have hrest := @ih (bufferRound m ring i) ?_ fun p hp => hne p (List.mem_cons_of_mem _ hp)
    · rw [List.length_cons, ← hcount]
      exact Nat.succ_le_succ hrest
    · rw [bufferRound_pmm, pmmAlloc_totalFrames, pmmAlloc_bitmapSize]
      exact hsize

theorem descriptorWord_inj {i j : Fin I219.numRxDesc} {k l : Fin 2} :
    descriptorWord i k = descriptorWord j l ↔ i = j ∧ k = l := by
  simp only [descriptorWord, Fin.ext_iff]
  omega

theorem entry_bufferRound (m : Machine) (ring : ℕ) (i j : Fin I219.numRxDesc) :
    (bufferRound m ring i).entry ring (descriptorWord j 0) =
      if j = i then (pmmAlloc m.pmm).1 else m.entry ring (descriptorWord j 0) := by
  simp only [bufferRound, setDescriptor, Machine.entry, mem_setEntry, descriptorWord_inj, true_and]
  by_cases hj : j = i
  · simp [hj]
  · simp [hj, Machine.note]

theorem mem_bufferRound {m : Machine} {ring f : ℕ} (hf : f ≠ physAddrToIndex ring)
    (i : Fin I219.numRxDesc) : (bufferRound m ring i).mem f = m.mem f := by
  funext j
  rw [bufferRound, setDescriptor, mem_setEntry, if_neg fun h => hf h.1, mem_setEntry,
    if_neg fun h => hf h.1]
  rfl

/-- The loop has put the frames into the descriptors. -/
structure Filled (hhdmOffset ring : ℕ) (is : List (Fin I219.numRxDesc)) (m : Machine)
    (r : List ℕ × Machine) (frames : List ℕ) : Prop where
  pointers : r.1 = frames.map fun f => (f * 4096 + hhdmOffset) % 2 ^ 64
  nodup : frames.Nodup
  taken : ∀ f ∈ frames, f < m.pmm.totalFrames ∧ m.pmm.used f = false ∧ r.2.pmm.used f = true
  used : ∀ f, m.pmm.used f = true → r.2.pmm.used f = true
  pml4Phys : r.2.pml4Phys = m.pml4Phys
  mem : ∀ f, f ≠ physAddrToIndex ring → r.2.mem f = m.mem f
  descriptors : (is.map fun i => r.2.entry ring (descriptorWord i 0)) = frames.map (· * 4096)
  other : ∀ i, i ∉ is → r.2.entry ring (descriptorWord i 0) = m.entry ring (descriptorWord i 0)

theorem exists_filled (hhdmOffset ring : ℕ) {is : List (Fin I219.numRxDesc)} (his : is.Nodup)
    {m : Machine} (hT : m.pmm.totalFrames ≤ 2 ^ 40)
    (hsize : m.pmm.totalFrames ≤ 8 * m.pmm.bitmapSize) (hle : is.length ≤ clearCount m.pmm) :
    ∃ frames, Filled hhdmOffset ring is m (fillRing hhdmOffset ring is m) frames := by
  induction is generalizing m with
  | nil => exact ⟨[], rfl, List.nodup_nil, by simp, fun _ h => h, rfl, fun _ _ => rfl, rfl,
      fun _ _ => rfl⟩
  | cons i is ih =>
    rw [List.length_cons] at hle
    obtain ⟨f, hf, hcount⟩ := exists_firstFree hsize (Nat.zero_lt_of_lt hle)
    have hlt := hf.lt_total
    have halloc := pmmAlloc_of_firstFree hf
    rw [indexToPhysAddr_of_lt (by omega)] at halloc
    have hused : ∀ g, (pmmAlloc m.pmm).2.used g = true ↔ m.pmm.used g = true ∨ g = f := by
      intro g
      rw [halloc, used_claimFrame, Bool.or_eq_true, decide_eq_true_eq]
    obtain ⟨frames, hfilled⟩ := @ih (List.nodup_cons.mp his).2 (bufferRound m ring i)
      (by rw [bufferRound_pmm, pmmAlloc_totalFrames]; exact hT)
      (by rw [bufferRound_pmm, pmmAlloc_totalFrames, pmmAlloc_bitmapSize]; exact hsize)
      (by rw [bufferRound_pmm]; omega)
    have hfirst : (pmmAlloc m.pmm).1 = f * 4096 := congrArg Prod.fst halloc
    have htaken := hfilled.taken
    have hkept := hfilled.used
    simp only [bufferRound_pmm, pmmAlloc_totalFrames] at htaken hkept
    rw [fillRing_cons]
    refine ⟨f :: frames, ?_, List.nodup_cons.mpr ⟨fun hmem => ?_, hfilled.nodup⟩, fun g hg => ?_,
      fun g hg => hkept g ((hused g).mpr (.inl hg)), hfilled.pml4Phys, fun g hg => ?_, ?_,
      fun j hj => ?_⟩
    · rw [List.map_cons, ← hfirst, ← hfilled.pointers]
    · -- the frame is in use by then
      have hfree := (htaken f hmem).2.1
      rw [(hused f).mpr (.inr rfl)] at hfree
      exact absurd hfree (by simp)
    · rcases List.mem_cons.mp hg with rfl | hg
      · exact ⟨hf.lt_total, hf.free, hkept g ((hused g).mpr (.inr rfl))⟩
      · obtain ⟨hglt, hgfree, hgused⟩ := htaken g hg
        exact ⟨hglt, free_of_kept (fun hold => (hused g).mpr (.inl hold)) hgfree, hgused⟩
    · exact (hfilled.mem g hg).trans (mem_bufferRound hg i)
    · rw [List.map_cons, List.map_cons, ← hfilled.descriptors]
      apply congrArg₂ List.cons _ rfl
      refine (hfilled.other i (List.nodup_cons.mp his).1).trans ?_
      rw [entry_bufferRound, if_pos rfl, hfirst]
    · rw [List.mem_cons, not_or] at hj
      refine (hfilled.other j hj.2).trans ?_
      rw [entry_bufferRound, if_neg hj.1]

end MathUnikernel.Nic
