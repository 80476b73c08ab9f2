import MathUnikernel.Loader

/-!
# Reading the header buffer

How `read_ethernet` takes the bytes of one frame, and what its callers make of them.
-/

namespace MathUnikernel.Network
open ByteStore Runs

/-! ## One byte -/

/-- The increments of `hdr_read` ahead of the byte's delivery. -/
def ReadPc.taken : ReadPc → ℕ
  | .testDone _ | .setDone _ => 1
  | _ => 0

/-- The local variables hold byte `c` of the buffer. -/
def ReadPc.Local (s : Net) (c : ℕ) : ReadPc → Prop
  | .loadByte read => read = c
  | .storeRead read byte => read = c ∧ byte = s.hdrBuf c
  | .testDone byte => byte = s.hdrBuf c
  | .setDone byte => byte = s.hdrBuf c ∧ 12 ≤ c + 1
  | .bodyWait => False
  | _ => True

/-- `read_ethernet` is to return byte `c` of the frame in the buffer. -/
structure Reading (l : Loader) (caller : Caller) (c : ℕ) (r : ReadPc) : Prop where
  pc : l.pc = .read caller r
  hdrDone : l.net.hdrDone = false
  rxReady : l.net.rxReady = true
  lt : c < l.net.hdrLen
  len_le : l.net.hdrLen ≤ 16
  hdrRead : l.net.hdrRead = c + r.taken
  locals : r.Local l.net c

/-- Steps until the byte is delivered.  A length test with a stale index goes round once more. -/
def ReadPc.rank (hdrLen : ℕ) : ReadPc → ℕ
  | .enter => 10
  | .testReady => 8
  | .testRead => 7
  | .testLen read => if hdrLen ≤ read then 9 else 6
  | .loadRead => 5
  | .loadByte _ => 4
  | .storeRead _ _ => 3
  | .testDone _ => 2
  | .setDone _ => 1
  | .bodyWait => 0

def Loader.rank (l : Loader) : ℕ :=
  match l.pc with
  | .read _ r => 11 * (16 - (l.net.hdrRead - r.taken)) + r.rank l.net.hdrLen
  | _ => 0

theorem Reading.rank_eq {l : Loader} {caller : Caller} {c : ℕ} {r : ReadPc}
    (h : Reading l caller c r) : l.rank = 11 * (16 - c) + r.rank l.net.hdrLen := by
  rw [Loader.rank, h.pc]
  simp only [h.hdrRead, Nat.add_sub_cancel]

theorem Reading.rank_pos {l : Loader} {caller : Caller} {c : ℕ} {r : ReadPc}
    (h : Reading l caller c r) : 0 < r.rank l.net.hdrLen := by
  have hlocals := h.locals
  cases r with
  | bodyWait => exact absurd hlocals id
  | testLen read =>
    simp only [ReadPc.rank]
    split_ifs <;> norm_num
  | _ => simp [ReadPc.rank]

/-- A step within the same byte that leaves `hdr_read` alone. -/
theorem Reading.stay {net : Net} {caller : Caller} {c : ℕ} {r r' : ReadPc}
    (h : Reading ⟨net, .read caller r⟩ caller c r)
    (hstep : Loader.step ⟨net, .read caller r⟩ = ⟨net, .read caller r'⟩)
    (htaken : r'.taken = r.taken) (hlocals : r'.Local net c)
    (hrank : r'.rank net.hdrLen < r.rank net.hdrLen) :
    ∃ r', Reading (Loader.step ⟨net, .read caller r⟩) caller c r' ∧
      (Loader.step ⟨net, .read caller r⟩).net = { net with hdrRead := c + r'.taken } ∧
      r'.rank net.hdrLen < r.rank net.hdrLen := by
  have hread : net.hdrRead = c + r'.taken := htaken ▸ h.hdrRead
  rw [hstep]
  exact ⟨r', ⟨rfl, h.hdrDone, h.rxReady, h.lt, h.len_le, hread, hlocals⟩, by rw [← hread], hrank⟩

/-- A step either gets on with the same byte or delivers it. -/
theorem Reading.step {l : Loader} {caller : Caller} {c : ℕ} {r : ReadPc}
    (h : Reading l caller c r) :
    (∃ r', Reading l.step caller c r' ∧ l.step.net = { l.net with hdrRead := c + r'.taken } ∧
      r'.rank l.net.hdrLen < r.rank l.net.hdrLen) ∨
    l.step = ⟨{ l.net with hdrRead := c + 1, hdrDone := decide (12 ≤ c + 1) },
      caller.take (l.net.hdrBuf c)⟩ := by
  obtain ⟨net, pc⟩ := l
  obtain rfl : pc = .read caller r := h.pc
  have hdone : net.hdrDone = false := h.hdrDone
  have hready : net.rxReady = true := h.rxReady
  have hlt : c < net.hdrLen := h.lt
  have hlen : net.hdrLen ≤ 16 := h.len_le
  have hread : net.hdrRead = c + r.taken := h.hdrRead
  have hlocals : r.Local net c := h.locals
  cases r with
  | enter =>
    refine .inl (@h.stay _ _ _ _ .testReady ?_ rfl trivial (by simp [ReadPc.rank]))
    simp [Loader.step, readStep, hdone]
  | testReady =>
    refine .inl (@h.stay _ _ _ _ .testRead ?_ rfl trivial (by simp [ReadPc.rank]))
    simp [Loader.step, readStep, hready]
  | testRead =>
    refine .inl (@h.stay _ _ _ _ (.testLen net.hdrRead) rfl rfl trivial ?_)
    have hfresh : ¬net.hdrLen ≤ net.hdrRead := by
      rw [hread]
      exact Nat.not_le.mpr hlt
    simp [ReadPc.rank, hfresh]
  | testLen read =>
    by_cases hstale : net.hdrLen ≤ read
    · refine .inl (@h.stay _ _ _ _ .testReady ?_ rfl trivial (by simp [ReadPc.rank, hstale]))
      simp [Loader.step, readStep, hstale]
    · refine .inl (@h.stay _ _ _ _ .loadRead ?_ rfl trivial (by simp [ReadPc.rank, hstale]))
      simp [Loader.step, readStep, hstale]
  | loadRead =>
    exact .inl (@h.stay _ _ _ _ (.loadByte net.hdrRead) rfl rfl hread (by simp [ReadPc.rank]))
  | loadByte read =>
    obtain rfl : read = c := hlocals
    exact .inl (@h.stay _ _ _ _ (.storeRead read (net.hdrBuf read)) rfl rfl ⟨rfl, rfl⟩
      (by simp [ReadPc.rank]))
  | storeRead read byte =>
    obtain ⟨rfl, rfl⟩ : read = c ∧ byte = net.hdrBuf c := hlocals
    have hmod : (read + 1) % 2 ^ 16 = read + 1 := Nat.mod_eq_of_lt (by omega)
    have hstep : Loader.step ⟨net, .read caller (.storeRead read (net.hdrBuf read))⟩ =
        ⟨{ net with hdrRead := read + 1 }, .read caller (.testDone (net.hdrBuf read))⟩ := by
      simp only [Loader.step, readStep, hmod]
    rw [hstep]
    exact .inl ⟨.testDone (net.hdrBuf read), ⟨rfl, hdone, hready, hlt, hlen, rfl, rfl⟩, rfl,
      by simp [ReadPc.rank]⟩
  | testDone byte =>
    obtain rfl : byte = net.hdrBuf c := hlocals
    have hread' : net.hdrRead = c + 1 := hread
    by_cases hlast : 12 ≤ c + 1
    · refine .inl (@h.stay _ _ _ _ (.setDone (net.hdrBuf c)) ?_ rfl ⟨rfl, hlast⟩
        (by simp [ReadPc.rank]))
      simp only [Loader.step, readStep, hread', if_pos hlast]
    · right
      simp only [Loader.step, readStep, hread', if_neg hlast, decide_eq_false hlast]
      rw [← hread', ← hdone]
  | setDone byte =>
    obtain ⟨rfl, hlast⟩ : byte = net.hdrBuf c ∧ 12 ≤ c + 1 := hlocals
    have hread' : net.hdrRead = c + 1 := hread
    right
    simp only [Loader.step, readStep, decide_eq_true hlast]
    rw [← hread']
  | bodyWait => exact absurd hlocals id

/-! ## The callers -/

theorem shiftIn_eq (magic : ℕ) (byte : UInt8) :
    (magic <<< 8) % 2 ^ 32 ||| byte.toNat = magic % 2 ^ 24 * 256 + byte.toNat := by
  have hbyte : byte.toNat < 2 ^ 8 := byte.toNat_lt
  have hshift : (magic <<< 8) % 2 ^ 32 = 2 ^ 8 * (magic % 2 ^ 24) := by
    rw [Nat.shiftLeft_eq]
    omega
  rw [hshift, ← Nat.two_pow_add_eq_or_of_lt hbyte]
  omega

theorem appendByte_eq {i acc : ℕ} (byte : UInt8) (h : acc < 256 ^ i) :
    acc ||| byte.toNat <<< (i * 8) = acc + 256 ^ i * byte.toNat := by
  have hpow : (256 : ℕ) ^ i = 2 ^ (i * 8) := by rw [Nat.mul_comm, Nat.pow_mul]
  rw [hpow] at h ⊢
  rw [Nat.or_comm, ← Nat.shiftLeft_add_eq_or_of_lt h, Nat.shiftLeft_eq, Nat.add_comm, Nat.mul_comm]

/-- `"GO!!"` and the size, least significant byte first. -/
def headerBytes (size : ℕ) : List UInt8 :=
  [0x47, 0x4F, 0x21, 0x21] ++ (List.range 8).map fun i => UInt8.ofNat (size / 256 ^ i)

theorem length_headerBytes (size : ℕ) : (headerBytes size).length = 12 := by
  simp [headerBytes]

theorem headerBytes_size {size i : ℕ} (hi : i < 8) :
    (headerBytes size).getD (4 + i) 0 = UInt8.ofNat (size / 256 ^ i) := by
  rw [headerBytes, List.getD_append_right _ _ _ _ (by simp)]
  simp [hi]

/-- The window of `unlock` after `c` bytes of the header. -/
def windowAt (magic : ℕ) : ℕ → ℕ
  | 0 => magic
  | 1 => magic % 2 ^ 24 * 256 + 0x47
  | 2 => magic % 2 ^ 16 * 2 ^ 16 + 0x474F
  | 3 => magic % 2 ^ 8 * 2 ^ 24 + 0x474F21
  | _ => magicNumber

/-- The caller that takes byte `c` of the header. -/
def callerAt (magic size c : ℕ) : Caller :=
  if c < 4 then .unlock (windowAt magic c) else .size (c - 4) (size % 256 ^ (c - 4))

theorem take_unlock_magic (magic size : ℕ) {c : ℕ} (hc : c < 4) :
    (callerAt magic size c).take ((headerBytes size).getD c 0) =
      .read (callerAt magic size (c + 1)) .enter := by
  simp only [callerAt, if_pos hc, Caller.take, shiftIn_eq]
  interval_cases c
  · have hne : magic % 2 ^ 24 * 256 + 0x47 ≠ magicNumber := by unfold magicNumber; omega
    exact if_pos hne
  · have hshift : (magic % 2 ^ 24 * 256 + 0x47) % 2 ^ 24 * 256 + 0x4F =
        magic % 2 ^ 16 * 2 ^ 16 + 0x474F := by omega
    have hne : magic % 2 ^ 16 * 2 ^ 16 + 0x474F ≠ magicNumber := by unfold magicNumber; omega
    exact (congrArg (fun w => if w ≠ magicNumber then Pc.read (.unlock w) .enter else _) hshift).trans
      (if_pos hne)
  · have hshift : (magic % 2 ^ 16 * 2 ^ 16 + 0x474F) % 2 ^ 24 * 256 + 0x21 =
        magic % 2 ^ 8 * 2 ^ 24 + 0x474F21 := by omega
    have hne : magic % 2 ^ 8 * 2 ^ 24 + 0x474F21 ≠ magicNumber := by unfold magicNumber; omega
    exact (congrArg (fun w => if w ≠ magicNumber then Pc.read (.unlock w) .enter else _) hshift).trans
      (if_pos hne)
  · have hshift : (magic % 2 ^ 8 * 2 ^ 24 + 0x474F21) % 2 ^ 24 * 256 + 0x21 = magicNumber := by
      unfold magicNumber
      omega
    have hzero : size % 256 ^ 0 = 0 := by rw [Nat.pow_zero, Nat.mod_one]
    refine (if_neg (not_not.mpr hshift)).trans ?_
    rw [if_neg (by omega), hzero]

theorem take_size {size i : ℕ} (hi : i < 8) (magic : ℕ) (hsize : size < 2 ^ 64) :
    (callerAt magic size (4 + i)).take ((headerBytes size).getD (4 + i) 0) =
      if i + 1 < 8 then .read (callerAt magic size (4 + (i + 1))) .enter else .alloc size := by
  have hbyte : (UInt8.ofNat (size / 256 ^ i)).toNat = size / 256 ^ i % 256 := by simp
  have hacc : size % 256 ^ i ||| (UInt8.ofNat (size / 256 ^ i)).toNat <<< (i * 8) =
      size % 256 ^ (i + 1) := by
    rw [appendByte_eq _ (Nat.mod_lt size (Nat.pow_pos (by norm_num : 0 < 256))), hbyte]
    exact Nat.mod_pow_succ.symm
  simp only [callerAt, if_neg (show ¬4 + i < 4 by omega), show ¬4 + (i + 1) < 4 by omega, if_false,
    Nat.add_sub_cancel_left, Caller.take, headerBytes_size hi, hacc]
  split_ifs with hlast
  · rfl
  · obtain rfl : i = 7 := by omega
    rw [Nat.mod_eq_of_lt (by omega)]

theorem take_callerAt (magic : ℕ) {size c : ℕ} (hc : c < 12) (hsize : size < 2 ^ 64) :
    (callerAt magic size c).take ((headerBytes size).getD c 0) =
      if c + 1 < 12 then .read (callerAt magic size (c + 1)) .enter else .alloc size := by
  by_cases hmagic : c < 4
  · rw [if_pos (by omega), take_unlock_magic magic size hmagic]
  · obtain ⟨i, rfl⟩ := Nat.exists_eq_add_of_le (Nat.le_of_not_lt hmagic)
    rw [take_size (by omega) magic hsize]
    by_cases hlast : i + 1 < 8
    · rw [if_pos hlast, if_pos (by omega), Nat.add_assoc]
    · rw [if_neg hlast, if_neg (by omega)]

/-- None of the four bytes in the window is `0x47`. -/
def NoMagic (magic : ℕ) : Prop :=
  magic % 2 ^ 8 ≠ 0x47 ∧ magic / 2 ^ 8 % 2 ^ 8 ≠ 0x47 ∧ magic / 2 ^ 16 % 2 ^ 8 ≠ 0x47 ∧
    magic / 2 ^ 24 ≠ 0x47

theorem noMagic_zero : NoMagic 0 := by simp [NoMagic]

/-- Without `0x47` the window never shows the magic number. -/
theorem NoMagic.take {magic : ℕ} (h : NoMagic magic) {byte : UInt8} (hbyte : byte ≠ 0x47) :
    ∃ magic', (Caller.unlock magic).take byte = .read (.unlock magic') .enter ∧ NoMagic magic' := by
  have hval : byte.toNat ≠ 0x47 := fun he => hbyte (UInt8.toNat_inj.mp he)
  have hlt : byte.toNat < 256 := byte.toNat_lt
  obtain ⟨h0, h1, h2, h3⟩ := h
  have hnext : NoMagic (magic % 2 ^ 24 * 256 + byte.toNat) := by
    refine ⟨?_, ?_, ?_, ?_⟩ <;> omega
  refine ⟨_, ?_, hnext⟩
  have hne : magic % 2 ^ 24 * 256 + byte.toNat ≠ magicNumber := by
    have htop := hnext.2.2.2
    unfold magicNumber
    omega
  simp only [Caller.take, shiftIn_eq]
  exact if_pos hne

/-! ## Waiting for a frame -/

/-- Every byte of the buffer has been delivered. -/
def ReadPc.Idle (s : Net) : ReadPc → Prop
  | .enter | .testReady => s.rxReady = false ∨ s.hdrLen ≤ s.hdrRead
  | .testRead => s.rxReady = true ∧ s.hdrLen ≤ s.hdrRead
  | .testLen read => s.rxReady = true ∧ s.hdrLen ≤ s.hdrRead ∧ s.hdrLen ≤ read
  | _ => False

/-- `read_ethernet` waits for the next frame. -/
structure Starved (l : Loader) (caller : Caller) (r : ReadPc) : Prop where
  pc : l.pc = .read caller r
  hdrDone : l.net.hdrDone = false
  idle : r.Idle l.net

theorem Starved.step {l : Loader} {caller : Caller} {r : ReadPc} (h : Starved l caller r) :
    ∃ r', Starved l.step caller r' ∧ r' ≠ .enter ∧ l.step.net = l.net := by
  obtain ⟨net, pc⟩ := l
  obtain rfl : pc = .read caller r := h.pc
  have hdone : net.hdrDone = false := h.hdrDone
  have hidle : r.Idle net := h.idle
  have hgo : ∀ r', Loader.step ⟨net, .read caller r⟩ = ⟨net, .read caller r'⟩ →
      r'.Idle net → r' ≠ .enter → ∃ r', Starved (Loader.step ⟨net, .read caller r⟩) caller r' ∧
        r' ≠ .enter ∧ (Loader.step ⟨net, .read caller r⟩).net = net := by
    intro r' hstep hr' hne
    rw [hstep]
    exact ⟨r', ⟨rfl, hdone, hr'⟩, hne, rfl⟩
  cases r with
  | enter =>
    apply hgo .testReady _ hidle (by simp)
    simp [Loader.step, readStep, hdone]
  | testReady =>
    cases hready : net.rxReady with
    | false =>
      apply hgo .testReady _ (.inl hready) (by simp)
      simp [Loader.step, readStep, hready]
    | true =>
      have hlen : net.hdrLen ≤ net.hdrRead := hidle.resolve_left (by simp [hready])
      apply hgo .testRead _ ⟨hready, hlen⟩ (by simp)
      simp [Loader.step, readStep, hready]
  | testRead => exact hgo (.testLen net.hdrRead) rfl ⟨hidle.1, hidle.2, hidle.2⟩ (by simp)
  | testLen read =>
    apply hgo .testReady _ (.inr hidle.2.1) (by simp)
    simp [Loader.step, readStep, hidle.2.2]
  | _ => exact absurd hidle id

theorem Starved.waits {l : Loader} {caller : Caller} {r : ReadPc} (h : Starved l caller r)
    (hr : r ≠ .enter) : l.Waits := by
  have hidle := h.idle
  rw [Loader.Waits, h.pc]
  cases r with
  | enter => exact absurd rfl hr
  | testReady => exact ⟨hidle, trivial⟩
  | testRead => exact ⟨.inr hidle.2, trivial⟩
  | testLen read => exact ⟨.inr hidle.2.1, trivial⟩
  | _ => exact absurd hidle id

theorem Starved.eventually_waits {l : Loader} {caller : Caller} {r : ReadPc}
    (h : Starved l caller r) : ∃ k, (Loader.step^[k] l).Waits := by
  obtain ⟨r', hstarved, hne, -⟩ := h.step
  exact ⟨1, hstarved.waits hne⟩

/-- A frame that arrives then is read from its first byte on. -/
theorem Starved.receive {l : Loader} {caller : Caller} {r : ReadPc} (h : Starved l caller r)
    {data : Frame} (hdata : IsCustom data) :
    Reading { l with net := (networkReceiveFrame l.net data).net } caller 0 r ∧
      (networkReceiveFrame l.net data).net.hdrLen = min 16 (payload data).length ∧
      ∀ c, (hc : c < ((payload data).take 16).length) →
        (networkReceiveFrame l.net data).net.hdrBuf c = ((payload data).take 16)[c] := by
  have hpos := List.length_pos_iff.mpr hdata.payload_ne_nil
  have hlen : ((payload data).take headerFrameSize).length = min 16 (payload data).length :=
    List.length_take
  rw [networkReceiveFrame_header hdata h.hdrDone]
  refine ⟨⟨h.pc, h.hdrDone, rfl, ?_, ?_, ?_, ?_⟩, hlen, fun c hc => hdrBuf_write _ hc⟩
  · exact hlen.symm ▸ (by omega : 0 < min 16 (payload data).length)
  · exact hlen.symm ▸ (by omega : min 16 (payload data).length ≤ 16)
  · have hidle := h.idle
    cases r <;> first | rfl | exact absurd hidle id
  · have hidle := h.idle
    cases r <;> trivial

/-- The loop never waits while a frame is being read. -/
theorem Reading.not_waits {l : Loader} {caller : Caller} {c : ℕ} {r : ReadPc}
    (h : Reading l caller c r) : ¬l.Waits := by
  intro ⟨hcond, hpc⟩
  rw [h.pc] at hpc
  have hread := h.hdrRead
  have hlt := h.lt
  rw [h.rxReady] at hcond
  have hge := hcond.resolve_left (by simp)
  cases r with
  | testReady | testRead | testLen =>
    simp only [ReadPc.taken] at hread
    omega
  | _ => exact absurd hpc id

/-- `unlock` waits for the next frame, its window at `magic`. -/
structure Idle (l : Loader) (magic : ℕ) (r : ReadPc) : Prop where
  pc : l.pc = .read (.unlock magic) r
  hdrDone : l.net.hdrDone = false
  idle : r.Idle l.net

theorem idle_iff {l : Loader} {magic : ℕ} {r : ReadPc} :
    Idle l magic r ↔ Starved l (.unlock magic) r :=
  ⟨fun h => ⟨h.pc, h.hdrDone, h.idle⟩, fun h => ⟨h.pc, h.hdrDone, h.idle⟩⟩

theorem Idle.step {l : Loader} {magic : ℕ} {r : ReadPc} (h : Idle l magic r) :
    ∃ r', Idle l.step magic r' ∧ r' ≠ .enter ∧ l.step.net = l.net := by
  simp only [idle_iff] at h ⊢
  exact h.step

theorem Idle.waits {l : Loader} {magic : ℕ} {r : ReadPc} (h : Idle l magic r) (hr : r ≠ .enter) :
    l.Waits := (idle_iff.mp h).waits hr

theorem Idle.eventually_waits {l : Loader} {magic : ℕ} {r : ReadPc} (h : Idle l magic r) :
    ∃ k, (Loader.step^[k] l).Waits := (idle_iff.mp h).eventually_waits

/-- A frame that arrives while `unlock` waits is read from its first byte on. -/
theorem Idle.receive {l : Loader} {magic : ℕ} {r : ReadPc} (h : Idle l magic r) {data : Frame}
    (hdata : IsCustom data) :
    Reading { l with net := (networkReceiveFrame l.net data).net } (.unlock magic) 0 r ∧
      (networkReceiveFrame l.net data).net.hdrLen = min 16 (payload data).length ∧
      ∀ c, (hc : c < ((payload data).take 16).length) →
        (networkReceiveFrame l.net data).net.hdrBuf c = ((payload data).take 16)[c] :=
  (idle_iff.mp h).receive hdata

/-! ## A header frame in the buffer -/

structure HeaderIn (s : Net) (size : ℕ) : Prop where
  len : 12 ≤ s.hdrLen
  bytes : ∀ c < 12, s.hdrBuf c = (headerBytes size).getD c 0

/-- The header is being read, from a window that held `magic`. -/
def Announcing (magic size : ℕ) (l : Loader) : Prop :=
  HeaderIn l.net size ∧ ∃ c < 12, ∃ r, Reading l (callerAt magic size c) c r

/-- A step gets on with the header or announces its size. -/
theorem Announcing.step {magic size : ℕ} (hsize : size < 2 ^ 64) {l : Loader}
    (h : Announcing magic size l) :
    (Announcing magic size l.step ∧ l.step.rank < l.rank) ∨
      (l.step.pc = .alloc size ∧ l.step.net.hdrDone = true) := by
  obtain ⟨hin, c, hc, r, hr⟩ := h
  have hrank := hr.rank_eq
  rcases hr.step with ⟨r', hr', hnet, hlt⟩ | htake
  · refine .inl ⟨⟨⟨?_, ?_⟩, c, hc, r', hr'⟩, ?_⟩
    · rw [hnet]
      exact hin.len
    · rw [hnet]
      exact hin.bytes
    · have hrank' := hr'.rank_eq
      rw [hnet] at hrank'
      simp only at hrank'
      omega
  · rw [hin.bytes c hc, take_callerAt magic hc hsize] at htake
    by_cases hlast : c + 1 < 12
    · rw [if_pos hlast, decide_eq_false (Nat.not_le.mpr hlast)] at htake
      have hnext : Reading l.step (callerAt magic size (c + 1)) (c + 1) .enter := by
        rw [htake]
        exact ⟨rfl, rfl, hr.rxReady, lt_of_lt_of_le hlast hin.len, hr.len_le, rfl, trivial⟩
      have hrank' := hnext.rank_eq
      refine .inl ⟨⟨?_, c + 1, hlast, _, hnext⟩, ?_⟩
      · rw [htake]
        exact ⟨hin.len, hin.bytes⟩
      · have hpos := hr.rank_pos
        have henter : ReadPc.rank l.step.net.hdrLen .enter = 10 := rfl
        omega
    · rw [if_neg hlast, decide_eq_true (Nat.le_of_not_lt hlast)] at htake
      right
      rw [htake]
      exact ⟨rfl, rfl⟩

/-- `read_ethernet` leaves the destination alone. -/
theorem step_rx {l : Loader} {caller : Caller} {r : ReadPc} (h : l.pc = .read caller r) :
    l.step.net.rxDest = l.net.rxDest ∧ l.step.net.rxReceived = l.net.rxReceived := by
  obtain ⟨net, pc⟩ := l
  obtain rfl : pc = .read caller r := h
  cases r <;> simp only [Loader.step, readStep, and_self] <;> split_ifs <;> exact ⟨rfl, rfl⟩

/-- The main loop gets through the header on its own. -/
theorem Announcing.progress {magic size : ℕ} (hsize : size < 2 ^ 64) {l : Loader}
    (h : Announcing magic size l) :
    ∃ k, (Loader.step^[k] l).pc = .alloc size ∧ (Loader.step^[k] l).net.hdrDone = true ∧
      (Loader.step^[k] l).net.rxDest = l.net.rxDest ∧
      (Loader.step^[k] l).net.rxReceived = l.net.rxReceived := by
  refine exists_iterate_of_rank
    (I := fun t => Announcing magic size t ∧ t.net.rxDest = l.net.rxDest ∧
      t.net.rxReceived = l.net.rxReceived)
    (Q := fun t => t.pc = .alloc size ∧ t.net.hdrDone = true ∧ t.net.rxDest = l.net.rxDest ∧
      t.net.rxReceived = l.net.rxReceived) Loader.rank (fun t ht => ?_) ⟨h, rfl, rfl⟩
  obtain ⟨hann, hdest, hreceived⟩ := ht
  obtain ⟨hdest', hreceived'⟩ : t.step.net.rxDest = t.net.rxDest ∧
      t.step.net.rxReceived = t.net.rxReceived := by
    obtain ⟨-, c, -, r, hr⟩ := hann
    exact step_rx hr.pc
  right
  rcases hann.step hsize with ⟨hnext, hrank⟩ | ⟨hpc, hdone⟩
  · exact .inr ⟨⟨hnext, hdest'.trans hdest, hreceived'.trans hreceived⟩, hrank⟩
  · exact .inl ⟨hpc, hdone, hdest'.trans hdest, hreceived'.trans hreceived⟩

/-- A frame of the custom type whose payload starts with the header for `size`. -/
def IsHeader (size : ℕ) (data : Frame) : Prop :=
  IsCustom data ∧ headerBytes size <+: payload data

theorem Idle.receive_header {l : Loader} {magic size : ℕ} {r : ReadPc} (h : Idle l magic r)
    {data : Frame} (hdata : IsHeader size data) :
    Announcing magic size { l with net := (networkReceiveFrame l.net data).net } := by
  obtain ⟨hcustom, padding, hpadding⟩ := hdata
  obtain ⟨hreading, hlen, hbuf⟩ := h.receive hcustom
  have hheader := length_headerBytes size
  have hpayload : 12 ≤ (payload data).length := by
    rw [← hpadding, List.length_append, hheader]
    omega
  refine ⟨⟨?_, fun c hc => ?_⟩, 0, by omega, r, hreading⟩
  · change 12 ≤ (networkReceiveFrame l.net data).net.hdrLen
    rw [hlen]
    omega
  · have hc' : c < ((payload data).take 16).length := by
      rw [List.length_take]
      omega
    refine (hbuf c hc').trans ?_
    rw [List.getElem_take]
    simp only [← hpadding]
    rw [List.getElem_append_left (by omega), List.getD_eq_getElem _ _ (by omega)]

/-! ## Other frames in the buffer -/

/-- A frame without the byte `0x47` is being read. -/
def Junk (l : Loader) : Prop :=
  (∀ c < l.net.hdrLen, l.net.hdrBuf c ≠ 0x47) ∧
    ∃ magic c r, NoMagic magic ∧ Reading l (.unlock magic) c r

/-- A step gets on with the frame, comes to its end, or has seen 12 bytes of it. -/
theorem Junk.step {l : Loader} (h : Junk l) :
    (Junk l.step ∧ l.step.rank < l.rank ∧ l.step.net.hdrLen = l.net.hdrLen) ∨
    ((∃ magic, NoMagic magic ∧ Idle l.step magic .enter) ∧ l.net.hdrLen < 12) ∨
    (l.step.net.hdrDone = true ∧ (∃ caller r, l.step.pc = .read caller r) ∧ 12 ≤ l.net.hdrLen) := by
  obtain ⟨hbuf, magic, c, r, hmagic, hr⟩ := h
  have hrank := hr.rank_eq
  have hlt := hr.lt
  rcases hr.step with ⟨r', hr', hnet, hdown⟩ | htake
  · have hrank' := hr'.rank_eq
    rw [hnet] at hrank'
    simp only at hrank'
    refine .inl ⟨⟨?_, magic, c, r', hmagic, hr'⟩, by omega, by rw [hnet]⟩
    rw [hnet]
    exact hbuf
  · obtain ⟨magic', hnext, hmagic'⟩ := hmagic.take (hbuf c hlt)
    rw [hnext] at htake
    by_cases hdone : 12 ≤ c + 1
    · rw [decide_eq_true hdone] at htake
      right; right
      rw [htake]
      exact ⟨rfl, ⟨_, _, rfl⟩, by omega⟩
    · rw [decide_eq_false hdone] at htake
      by_cases hend : c + 1 < l.net.hdrLen
      · have hread : Reading l.step (.unlock magic') (c + 1) .enter := by
          rw [htake]
          exact ⟨rfl, rfl, hr.rxReady, hend, hr.len_le, rfl, trivial⟩
        have hrank' := hread.rank_eq
        have hpos := hr.rank_pos
        have henter : ReadPc.rank l.step.net.hdrLen .enter = 10 := rfl
        have hlen := hr.len_le
        refine .inl ⟨⟨?_, magic', c + 1, _, hmagic', hread⟩, by omega, by rw [htake]⟩
        rw [htake]
        exact hbuf
      · refine .inr (.inl ⟨⟨magic', hmagic', ?_⟩, by omega⟩)
        rw [htake]
        exact ⟨rfl, rfl, .inr (Nat.le_of_not_lt hend)⟩

theorem Idle.receive_junk {l : Loader} {magic : ℕ} {r : ReadPc} (h : Idle l magic r)
    (hmagic : NoMagic magic) {data : Frame} (hdata : IsCustom data)
    (hjunk : ∀ byte ∈ payload data, byte ≠ 0x47) :
    Junk { l with net := (networkReceiveFrame l.net data).net } ∧
      (networkReceiveFrame l.net data).net.hdrLen = min 16 (payload data).length := by
  obtain ⟨hreading, hlen, hbuf⟩ := h.receive hdata
  refine ⟨⟨fun c hc => ?_, magic, 0, r, hmagic, hreading⟩, hlen⟩
  have hc' : c < ((payload data).take 16).length := by
    rw [List.length_take, ← hlen]
    exact hc
  have hbyte := hjunk _ (List.mem_of_mem_take (List.getElem_mem hc'))
  rw [← hbuf c hc'] at hbyte
  exact hbyte

end MathUnikernel.Network
