import MathUnikernel.Resync

/-!
# A header in several frames

`read_ethernet` reads a header that comes in pieces, but counts the bytes of the last piece only.
-/

namespace MathUnikernel.Network
open ByteStore Runs

/-- The payloads of the frames, one after the other, are the header for `size`. -/
structure HeaderCut (size : ℕ) (frames : List Frame) : Prop where
  custom : ∀ f ∈ frames, IsCustom f
  bytes : frames.flatMap payload = headerBytes size

/-- What a state guarantees when the last frames of the header are still to come: the loop comes to
wait for each of them, and `poll_payload_size` returns the size in the end. -/
structure ValueRead (l : Link) (size : ℕ) : Prop where
  waits : l.todo ≠ [] → ∃ k, (Loader.step^[k] l.loader).Waits
  announces : l.todo = [] → ∃ k, (Loader.step^[k] l.loader).pc.Announced size
  value : ∀ n, l.loader.pc.Announced n → n = size

/-- The header is read and the next frame is taken as payload. -/
structure HeaderRead (l : Link) (size : ℕ) : Prop extends ValueRead l size where
  hdrDone : l.loader.pc.Announced size → l.loader.net.hdrDone = true

/-- So in every run that delivers each frame while the loop waits. -/
def HeaderReads (l₀ : Link) (size : ℕ) : Prop :=
  ∀ tr l, Run LinkStep l₀ tr l → (∀ x ∈ tr, x.2.1 = .send → x.1.loader.Waits) → HeaderRead l size

theorem Pc.Announced.unique {pc : Pc} {n size : ℕ} (h : pc.Announced n) (h' : pc.Announced size) :
    n = size := by
  cases pc with
  | alloc | setDest | setExpected | setReceived | pollPayload | loaded => exact h.symm.trans h'
  | _ => exact absurd h id

/-- After the header nothing touches `hdr_done`. -/
theorem hdrDone_announced_step {l : Loader} {size : ℕ} (h : l.pc.Announced size) :
    l.step.net.hdrDone = l.net.hdrDone := by
  obtain ⟨net, pc⟩ := l
  cases pc with
  | pollPayload dest n =>
    simp only [Loader.step]
    split_ifs
    · rfl
    · rfl
  | alloc | setDest | setExpected | setReceived | loaded => rfl
  | _ => exact absurd h id

/-! ## Pieces -/

theorem length_flatMap_payload_pos {frames : List Frame} (hcustom : ∀ f ∈ frames, IsCustom f)
    (h : frames ≠ []) : 0 < (frames.flatMap payload).length := by
  cases frames with
  | nil => exact absurd rfl h
  | cons f frames =>
    have hpos := List.length_pos_iff.mpr (hcustom f List.mem_cons_self).payload_ne_nil
    rw [List.flatMap_cons, List.length_append]
    omega

namespace HeaderCut

variable {size : ℕ} {frames before rest : List Frame} {f : Frame}

theorem lengths (h : HeaderCut size frames) (hsplit : frames = before ++ f :: rest) :
    (before.flatMap payload).length + (payload f).length + (rest.flatMap payload).length = 12 := by
  have hlength := congrArg List.length h.bytes
  rw [hsplit, length_headerBytes, List.flatMap_append, List.flatMap_cons, List.length_append,
    List.length_append] at hlength
  omega

/-- Byte `c` of a piece is a byte of the header. -/
theorem getD_piece (h : HeaderCut size frames) (hsplit : frames = before ++ f :: rest) {c : ℕ}
    (hc : c < (payload f).length) :
    (headerBytes size).getD ((before.flatMap payload).length + c) 0 = (payload f).getD c 0 := by
  rw [← h.bytes, hsplit, List.flatMap_append, List.flatMap_cons]
  rw [List.getD_append_right _ _ _ _ (Nat.le_add_right _ _), Nat.add_sub_cancel_left,
    List.getD_append _ _ _ _ hc]

theorem custom_piece (h : HeaderCut size frames) (hsplit : frames = before ++ f :: rest) :
    IsCustom f := h.custom f (by simp [hsplit])

theorem rest_pos (h : HeaderCut size frames) (hsplit : frames = before ++ f :: rest)
    (hrest : rest ≠ []) : 0 < (rest.flatMap payload).length := by
  apply length_flatMap_payload_pos _ hrest
  intro g hg
  exact h.custom g (by simp [hsplit, hg])

/-- The last piece has all 12 bytes if and only if it is the only one. -/
theorem whole_iff (h : HeaderCut size frames) (hsplit : frames = before ++ [f]) :
    12 ≤ (payload f).length ↔ frames.length = 1 := by
  have hlengths := h.lengths hsplit
  rw [hsplit, List.length_append, List.length_singleton]
  by_cases hbefore : before = []
  · have hwhole : (payload f).length = 12 := by simpa [hbefore] using hlengths
    simp [hwhole, hbefore]
  · have hpos : 0 < (before.flatMap payload).length := by
      apply length_flatMap_payload_pos _ hbefore
      intro g hg
      exact h.custom g (by simp [hsplit, hg])
    have hne := List.length_pos_iff.mpr hbefore
    omega

theorem ne_nil (h : HeaderCut size frames) : frames ≠ [] := by
  intro hnil
  have hlength := congrArg List.length h.bytes
  rw [hnil, length_headerBytes] at hlength
  exact absurd hlength (by simp)

end HeaderCut

/-! ## The states of a run -/

/-- Where the reader is in the header. -/
inductive CutState (size : ℕ) (frames : List Frame) (l : Link) : Prop
  | starved (before : List Frame) (r : ReadPc) : frames = before ++ l.todo → l.todo ≠ [] →
      Starved l.loader (callerAt 0 size (before.flatMap payload).length) r → CutState size frames l
  | reading (before : List Frame) (f : Frame) (c : ℕ) (r : ReadPc) :
      frames = before ++ f :: l.todo → l.loader.net.hdrLen = (payload f).length →
      (∀ i, i < (payload f).length → l.loader.net.hdrBuf i = (payload f).getD i 0) →
      Reading l.loader (callerAt 0 size ((before.flatMap payload).length + c)) c r →
      CutState size frames l
  | announced : l.todo = [] → l.loader.pc.Announced size →
      l.loader.net.hdrDone = decide (frames.length = 1) → CutState size frames l

variable {size : ℕ} {frames : List Frame}

/-- A step within a piece goes on with it, or comes to its end. -/
theorem reading_step (hsize : size < 2 ^ 64) (hcut : HeaderCut size frames) {l : Link}
    {before : List Frame} {f : Frame} {c : ℕ} {r : ReadPc} (hsplit : frames = before ++ f :: l.todo)
    (hlen : l.loader.net.hdrLen = (payload f).length)
    (hbuf : ∀ i, i < (payload f).length → l.loader.net.hdrBuf i = (payload f).getD i 0)
    (hr : Reading l.loader (callerAt 0 size ((before.flatMap payload).length + c)) c r) :
    (∃ c' r', l.loader.step.net.hdrLen = (payload f).length ∧
      (∀ i, i < (payload f).length → l.loader.step.net.hdrBuf i = (payload f).getD i 0) ∧
      Reading l.loader.step (callerAt 0 size ((before.flatMap payload).length + c')) c' r' ∧
      l.loader.step.rank < l.loader.rank) ∨
    (l.todo ≠ [] ∧ Starved l.loader.step
      (callerAt 0 size ((before ++ [f]).flatMap payload).length) .enter) ∨
    (l.todo = [] ∧ l.loader.step.pc = .alloc size ∧
      l.loader.step.net.hdrDone = decide (frames.length = 1)) := by
  have hrank := hr.rank_eq
  have hlt := hr.lt
  have hlengths := hcut.lengths hsplit
  rw [hlen] at hlt
  rcases hr.step with ⟨r', hr', hnet, hdown⟩ | htake
  · have hrank' := hr'.rank_eq
    refine .inl ⟨c, r', ?_, ?_, hr', ?_⟩
    · rw [hnet]
      exact hlen
    · rw [hnet]
      exact hbuf
    · rw [hnet] at hrank'
      simp only at hrank'
      omega
  · rw [hbuf c hlt, ← hcut.getD_piece hsplit hlt, take_callerAt 0 (by omega) hsize] at htake
    by_cases hmore : c + 1 < (payload f).length
    · -- the next byte of the piece
      rw [if_pos (by omega), decide_eq_false (by omega)] at htake
      have hnext : Reading l.loader.step
          (callerAt 0 size ((before.flatMap payload).length + (c + 1))) (c + 1) .enter := by
        rw [htake]
        exact ⟨rfl, rfl, hr.rxReady, hlen ▸ hmore, hr.len_le, rfl, trivial⟩
      have hrank' := hnext.rank_eq
      have hpos := hr.rank_pos
      have henter : ReadPc.rank l.loader.step.net.hdrLen .enter = 10 := rfl
      have hle := hr.len_le
      refine .inl ⟨c + 1, .enter, ?_, ?_, hnext, by omega⟩
      · rw [htake]
        exact hlen
      · rw [htake]
        exact hbuf
    · have hend : c + 1 = (payload f).length := by omega
      by_cases hrest : l.todo = []
      · -- the last byte of the header
        rw [hrest, List.flatMap_nil, List.length_nil] at hlengths
        rw [if_neg (by omega)] at htake
        refine .inr (.inr ⟨hrest, ?_, ?_⟩)
        · rw [htake]
        · rw [htake, hend]
          exact decide_eq_decide.mpr (hcut.whole_iff (hrest ▸ hsplit))
      · -- the piece has ended within the header
        have hpos := hcut.rest_pos hsplit hrest
        rw [if_pos (by omega), decide_eq_false (by omega)] at htake
        refine .inr (.inl ⟨hrest, ?_⟩)
        rw [htake, List.flatMap_append, List.length_append, List.flatMap_singleton, ← hend,
          ← Nat.add_assoc]
        exact ⟨rfl, rfl, .inr (by rw [hlen, hend])⟩

theorem CutState.main (hsize : size < 2 ^ 64) (hcut : HeaderCut size frames) {l : Link}
    (h : CutState size frames l) : CutState size frames { l with loader := l.loader.step } := by
  cases h with
  | starved before r hsplit hne hstarved =>
    obtain ⟨r', hstarved', -⟩ := hstarved.step
    exact .starved before r' hsplit hne hstarved'
  | reading before f c r hsplit hlen hbuf hr =>
    rcases reading_step hsize hcut hsplit hlen hbuf hr with
      ⟨c', r', hlen', hbuf', hr', -⟩ | ⟨hne, hstarved⟩ | ⟨hnil, hpc, hdone⟩
    · exact .reading before f c' r' hsplit hlen' hbuf' hr'
    · exact .starved (before ++ [f]) .enter (by simp [hsplit]) hne hstarved
    · refine .announced hnil ?_ hdone
      change l.loader.step.pc.Announced size
      rw [hpc]
      rfl
  | announced hnil hann hdone =>
    exact .announced hnil (announced_step hann) ((hdrDone_announced_step hann).trans hdone)

theorem CutState.send (hcut : HeaderCut size frames) {l : Link} {data : Frame} {rest : List Frame}
    (h : CutState size frames l) (hwaits : l.loader.Waits) (htodo : l.todo = data :: rest) :
    CutState size frames { l.receive data with todo := rest } := by
  cases h with
  | starved before r hsplit hne hstarved =>
    rw [htodo] at hsplit
    have hlengths := hcut.lengths hsplit
    obtain ⟨hreading, hlen, hbuf⟩ := hstarved.receive (hcut.custom_piece hsplit)
    have hshort : (payload data).take 16 = payload data := List.take_of_length_le (by omega)
    refine .reading before data 0 r hsplit ?_ (fun i hi => ?_) hreading
    · change (networkReceiveFrame l.loader.net data).net.hdrLen = (payload data).length
      omega
    · change (networkReceiveFrame l.loader.net data).net.hdrBuf i = (payload data).getD i 0
      rw [hbuf i (by rw [hshort]; exact hi), List.getD_eq_getElem _ _ hi]
      simp only [hshort]
  | reading before f c r hsplit hlen hbuf hr => exact absurd hwaits hr.not_waits
  | announced hnil => exact absurd (htodo.symm.trans hnil) (by simp)

theorem CutState.step (hsize : size < 2 ^ 64) (hcut : HeaderCut size frames) {l l' : Link}
    {e : LinkEvent} (h : CutState size frames l) (hlater : l.later = [])
    (hwaits : e = .send → l.loader.Waits) (hstep : LinkStep l e l') : CutState size frames l' := by
  cases hstep with
  | main => exact h.main hsize hcut
  | @alloc n dest mem hpc =>
    cases h with
    | starved before r hsplit hne hstarved => exact absurd (hstarved.pc.symm.trans hpc) (by simp)
    | reading before f c r hsplit hlen hbuf hr => exact absurd (hr.pc.symm.trans hpc) (by simp)
    | announced hnil hann hdone =>
      rw [hpc] at hann
      exact .announced hnil hann hdone
  | foreign hdata =>
    rw [receive_foreign hdata]
    exact h
  | send htodo hreset => exact h.send hcut (hwaits rfl) htodo
  | next hpc hnext => exact absurd (hlater.symm.trans hnext) (by simp)

/-- A piece is read to its end. -/
theorem CutState.progress (hsize : size < 2 ^ 64) (hcut : HeaderCut size frames) {l : Link}
    {before : List Frame} {f : Frame} {c : ℕ} {r : ReadPc} (hsplit : frames = before ++ f :: l.todo)
    (hlen : l.loader.net.hdrLen = (payload f).length)
    (hbuf : ∀ i, i < (payload f).length → l.loader.net.hdrBuf i = (payload f).getD i 0)
    (hr : Reading l.loader (callerAt 0 size ((before.flatMap payload).length + c)) c r) :
    ∃ k, (l.todo ≠ [] ∧ ∃ caller, Starved (Loader.step^[k] l.loader) caller .enter) ∨
      (l.todo = [] ∧ (Loader.step^[k] l.loader).pc = .alloc size) := by
  apply exists_iterate_of_rank
    (I := fun t : Loader => t.net.hdrLen = (payload f).length ∧
      (∀ i, i < (payload f).length → t.net.hdrBuf i = (payload f).getD i 0) ∧
      ∃ c r, Reading t (callerAt 0 size ((before.flatMap payload).length + c)) c r)
    (Q := fun t : Loader => (l.todo ≠ [] ∧ ∃ caller, Starved t caller .enter) ∨
      (l.todo = [] ∧ t.pc = .alloc size)) Loader.rank _ ⟨hlen, hbuf, c, r, hr⟩
  intro t ht
  obtain ⟨hlen', hbuf', c', r', hr'⟩ := ht
  right
  rcases @reading_step _ _ hsize hcut { l with loader := t } before f c' r' hsplit hlen' hbuf' hr' with
    ⟨c'', r'', hlen'', hbuf'', hr'', hrank⟩ | ⟨hne, hstarved⟩ | ⟨hnil, hpc, -⟩
  · exact .inr ⟨⟨hlen'', hbuf'', c'', r'', hr''⟩, hrank⟩
  · exact .inl (.inl ⟨hne, _, hstarved⟩)
  · exact .inl (.inr ⟨hnil, hpc⟩)

theorem CutState.valueRead (hsize : size < 2 ^ 64) (hcut : HeaderCut size frames) {l : Link}
    (h : CutState size frames l) : ValueRead l size := by
  cases h with
  | starved before r hsplit hne hstarved =>
    refine ⟨fun _ => hstarved.eventually_waits, fun hnil => absurd hnil hne, fun n hann => ?_⟩
    rw [hstarved.pc] at hann
    exact absurd hann id
  | reading before f c r hsplit hlen hbuf hr =>
    have hprogress := CutState.progress hsize hcut hsplit hlen hbuf hr
    refine ⟨fun hne => ?_, fun hnil => ?_, fun n hann => ?_⟩
    · obtain ⟨k, ⟨-, caller, hstarved⟩ | ⟨hnil, -⟩⟩ := hprogress
      · obtain ⟨k', hwaits⟩ := hstarved.eventually_waits
        rw [← Function.iterate_add_apply] at hwaits
        exact ⟨_, hwaits⟩
      · exact absurd hnil hne
    · obtain ⟨k, ⟨hne, -⟩ | ⟨-, hpc⟩⟩ := hprogress
      · exact absurd hnil hne
      · refine ⟨k, ?_⟩
        rw [hpc]
        rfl
    · rw [hr.pc] at hann
      exact absurd hann id
  | announced hnil hann hdone =>
    exact ⟨fun hne => absurd hnil hne, fun _ => ⟨0, hann⟩, fun n hn => hn.unique hann⟩

/-! ## Runs -/

theorem cutState_of_run (hsize : size < 2 ^ 64) (hcut : HeaderCut size frames) {l₀ l : Link}
    (h0 : AfterReset l₀ frames) {tr : List (Link × LinkEvent × Link)} (hrun : Run LinkStep l₀ tr l)
    (hwaits : ∀ x ∈ tr, x.2.1 = .send → x.1.loader.Waits) : CutState size frames l := by
  have hstarved : Starved l₀.loader (callerAt 0 size (([] : List Frame).flatMap payload).length)
      .enter := ⟨h0.pc, h0.reset.hdrDone, .inl h0.reset.rxReady⟩
  have hne : l₀.todo ≠ [] := by
    rw [h0.todo]
    exact hcut.ne_nil
  have hinv := hrun.invariant_of_guard (I := fun l => CutState size frames l ∧ l.later = [])
    (G := fun l e => e = .send → l.loader.Waits)
    ⟨.starved [] .enter (by rw [h0.todo, List.nil_append]) hne hstarved, h0.later⟩
    (fun l e l' hl hG hstep => ⟨hl.1.step hsize hcut hl.2 hG hstep, later_step hl.2 hstep⟩)
    fun x hx => hwaits x hx
  exact hinv.1.1

/-- However the header is cut, the loop waits for each piece, and the size is returned. -/
theorem valueRead_of_run (hsize : size < 2 ^ 64) (hcut : HeaderCut size frames) {l₀ l : Link}
    (h0 : AfterReset l₀ frames) {tr : List (Link × LinkEvent × Link)} (hrun : Run LinkStep l₀ tr l)
    (hwaits : ∀ x ∈ tr, x.2.1 = .send → x.1.loader.Waits) : ValueRead l size :=
  (cutState_of_run hsize hcut h0 hrun hwaits).valueRead hsize hcut

theorem Loader.Waits.not_resetting {l : Loader} (h : l.Waits) : ¬l.pc.Resetting := by
  obtain ⟨-, hpc⟩ := h
  intro hreset
  cases hl : l.pc with
  | resetDone | resetLen | resetRead | resetReady =>
    rw [hl] at hpc
    exact hpc
  | _ =>
    rw [hl] at hreset
    exact hreset

/-- Some run delivers all the frames and reads them. -/
theorem exists_run_announced {l₀ l : Link} (hread : ∀ tr l, Run LinkStep l₀ tr l →
      (∀ x ∈ tr, x.2.1 = .send → x.1.loader.Waits) → ValueRead l size)
    {tr : List (Link × LinkEvent × Link)} (hrun : Run LinkStep l₀ tr l)
    (hwaits : ∀ x ∈ tr, x.2.1 = .send → x.1.loader.Waits) :
    ∃ tr' l', Run LinkStep l₀ tr' l' ∧ (∀ x ∈ tr', x.2.1 = .send → x.1.loader.Waits) ∧
      l'.loader.pc.Announced size := by
  induction htodo : l.todo generalizing l tr with
  | nil =>
    obtain ⟨k, hann⟩ := (hread tr l hrun hwaits).announces htodo
    obtain ⟨tr', hrun', hwaits'⟩ := run_main_waits hrun hwaits k
    exact ⟨tr', _, hrun', hwaits', hann⟩
  | cons data rest ih =>
    obtain ⟨k, hready⟩ := (hread tr l hrun hwaits).waits (by simp [htodo])
    obtain ⟨tr', hrun', hwaits'⟩ := run_main_waits hrun hwaits k
    have hsend : LinkStep { l with loader := Loader.step^[k] l.loader } .send _ :=
      .send htodo hready.not_resetting
    apply ih (hrun'.snoc hsend) _ rfl
    intro x hx hx'
    rcases List.mem_append.mp hx with hx | hx
    · exact hwaits' x hx hx'
    · rw [List.mem_singleton.mp hx]
      exact hready

theorem HeaderReads.single (hsize : size < 2 ^ 64) (hcut : HeaderCut size frames) {l₀ : Link}
    (h0 : AfterReset l₀ frames) (h : HeaderReads l₀ size) : frames.length = 1 := by
  obtain ⟨tr, l, hrun, hwaits, hann⟩ := exists_run_announced
    (fun tr l hrun hwaits => valueRead_of_run hsize hcut h0 hrun hwaits) .nil
    fun x hx => absurd hx List.not_mem_nil
  have hdone := (h tr l hrun hwaits).hdrDone hann
  cases cutState_of_run hsize hcut h0 hrun hwaits with
  | starved before r hsplit hne hstarved =>
    rw [hstarved.pc] at hann
    exact absurd hann id
  | reading before f c r hsplit hlen hbuf hr =>
    rw [hr.pc] at hann
    exact absurd hann id
  | announced hnil hann' hpieces => exact of_decide_eq_true (hpieces.symm.trans hdone)

/-- The header is read, and the next frame taken as payload, if and only if it comes in one frame. -/
theorem headerReads_iff (hsize : size < 2 ^ 64) (hcut : HeaderCut size frames) {l₀ : Link}
    (h0 : AfterReset l₀ frames) : HeaderReads l₀ size ↔ frames.length = 1 := by
  constructor
  · exact HeaderReads.single hsize hcut h0
  · intro hsingle tr l hrun hwaits
    refine ⟨valueRead_of_run hsize hcut h0 hrun hwaits, fun hann => ?_⟩
    cases cutState_of_run hsize hcut h0 hrun hwaits with
    | starved before r hsplit hne hstarved =>
      rw [hstarved.pc] at hann
      exact absurd hann id
    | reading before f c r hsplit hlen hbuf hr =>
      rw [hr.pc] at hann
      exact absurd hann id
    | announced hnil hann' hpieces =>
      rw [hpieces]
      exact decide_eq_true hsingle

/-! ## The magic number and the size in frames of their own -/

/-- After `reset_header`, with these frames on their way. -/
def resetLink (frames : List Frame) : Link := { junkLink [] with todo := frames }

theorem resetLink_afterReset (frames : List Frame) : AfterReset (resetLink frames) frames :=
  ⟨rfl, ⟨rfl, rfl, rfl, rfl⟩, rfl, rfl⟩

theorem isCustom_etherHeader {bytes : List UInt8} (h : bytes ≠ []) :
    IsCustom (etherHeader ++ bytes) := by
  constructor
  · have hpos := List.length_pos_iff.mpr h
    have hlen : etherHeader.length = ethHeaderSize := rfl
    rw [List.length_append, hlen]
    omega
  · exact etherType_etherHeader bytes

theorem headerReads_one : HeaderReads (resetLink [etherHeader ++ headerBytes 1]) 1 := by
  have hcut : HeaderCut 1 [etherHeader ++ headerBytes 1] := by
    constructor
    · intro f hf
      rw [List.mem_singleton.mp hf]
      exact isCustom_etherHeader (by decide)
    · rw [List.flatMap_singleton, payload_etherHeader]
  exact (headerReads_iff (by norm_num) hcut (resetLink_afterReset _)).mpr rfl

/-- Two frames, one with the magic number and one with the size. -/
def twoFrames : List Frame :=
  [etherHeader ++ [0x47, 0x4F, 0x21, 0x21], etherHeader ++ [1, 0, 0, 0, 0, 0, 0, 0]]

theorem not_headerReads_two : HeaderCut 1 twoFrames ∧ AfterReset (resetLink twoFrames) twoFrames ∧
    ¬HeaderReads (resetLink twoFrames) 1 := by
  have hcut : HeaderCut 1 twoFrames := by
    constructor
    · intro f hf
      simp only [twoFrames, List.mem_cons, List.not_mem_nil, or_false] at hf
      rcases hf with rfl | rfl
      · exact isCustom_etherHeader (by simp)
      · exact isCustom_etherHeader (by simp)
    · rw [twoFrames, List.flatMap_cons, List.flatMap_singleton, payload_etherHeader,
        payload_etherHeader]
      decide
  refine ⟨hcut, resetLink_afterReset _, fun h => ?_⟩
  exact absurd (h.single (by norm_num) hcut (resetLink_afterReset _)) (by decide)

end MathUnikernel.Network
