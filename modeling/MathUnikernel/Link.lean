import MathUnikernel.Reading

/-!
# The sender, the interrupt handler and the main loop

A step relation: the main loop takes a step, or a frame arrives and the handler runs to its end.
-/

namespace MathUnikernel.Network
open ByteStore Runs

/-- What the sender transmits in one session, and what it means by it. -/
structure Workload where
  size : ℕ
  bytes : List UInt8
  header : Frame
  data : List Frame

def Workload.frames (w : Workload) : List Frame := w.header :: w.data

/-- The payloads are a cutting of `bytes` into non-empty chunks, with padding after the last. -/
def Cut (bytes : List UInt8) (data : List Frame) : Prop :=
  ∃ chunks last padding, data.map payload = chunks ++ [last ++ padding] ∧
    chunks.flatten ++ last = bytes ∧ (∀ chunk ∈ chunks, chunk ≠ []) ∧ last ≠ []

structure Workload.Valid (w : Workload) : Prop where
  size_pos : 1 ≤ w.size
  size_lt : w.size < 2 ^ 64
  length : w.bytes.length = w.size
  header : IsHeader w.size w.header
  custom : ∀ data ∈ w.data, IsCustom data
  cut : Cut w.bytes w.data

/-- The kernel's variables and memory, the workload in transmission with its frames still to send,
and the workloads after it.  `base` is the memory as it was when the destination was allocated. -/
structure Link where
  loader : Loader
  mem : ℕ → UInt8
  base : ℕ → UInt8
  current : Workload
  todo : List Frame
  later : List Workload

/-- The handler runs. -/
def Link.receive (l : Link) (data : Frame) : Link :=
  { l with
    loader := { l.loader with net := (networkReceiveFrame l.loader.net data).net }
    mem := write l.mem (networkReceiveFrame l.loader.net data).stores }

inductive LinkEvent
  | main
  /-- `vmm_alloc_huge_page` returns a destination, in memory as given. -/
  | alloc (dest : ℕ) (mem : ℕ → UInt8)
  | foreign (data : Frame)
  | send
  /-- The workload has run and its heap is gone; the next session begins. -/
  | next (mem : ℕ → UInt8)

inductive LinkStep : Link → LinkEvent → Link → Prop
  | main (l : Link) : LinkStep l .main { l with loader := l.loader.step }
  | alloc {l : Link} {size dest : ℕ} {mem : ℕ → UInt8} :
      l.loader.pc = .alloc size → dest ≠ 0 → dest + size ≤ 2 ^ 64 →
      LinkStep l (.alloc dest mem)
        { l with loader := { l.loader with pc := .setDest dest size }, mem, base := mem }
  | foreign {l : Link} {data : Frame} : ¬IsCustom data → LinkStep l (.foreign data) (l.receive data)
  | send {l : Link} {data : Frame} {rest : List Frame} :
      l.todo = data :: rest → ¬l.loader.pc.Resetting →
      LinkStep l .send { l.receive data with todo := rest }
  | next {l : Link} {dest size : ℕ} {w : Workload} {later : List Workload} {mem : ℕ → UInt8} :
      l.loader.pc = .loaded dest size → l.later = w :: later →
      LinkStep l (.next mem)
        { l with
          loader := { l.loader with pc := .resetDone }
          mem, current := w, todo := w.frames, later }

/-- A session is about to begin. -/
structure Link.Starts (l : Link) (w : Workload) (later : List Workload) : Prop where
  pc : l.loader.pc = .resetDone
  current : l.current = w
  todo : l.todo = w.frames
  later : l.later = later

/-- The next frame is the header, or `network_set_dest` has run to its end. -/
def Link.Paced (l : Link) : Prop :=
  l.todo = l.current.frames ∨ ∃ dest size, l.loader.pc.DestSet dest size

/-- The next frame is the header and `read_ethernet` waits, or `network_set_dest` has run to its
end. -/
def Link.Disciplined (l : Link) : Prop :=
  (l.todo = l.current.frames ∧ l.loader.Waits) ∨ ∃ dest size, l.loader.pc.DestSet dest size

theorem Link.Disciplined.paced {l : Link} (h : l.Disciplined) : l.Paced := h.imp_left And.left

theorem receive_foreign {data : Frame} (h : ¬IsCustom data) (l : Link) : l.receive data = l := by
  rw [Link.receive, networkReceiveFrame_foreign h]
  rfl

theorem iterate_main (l : Link) (k : ℕ) :
    (fun l : Link => { l with loader := l.loader.step })^[k] l =
      { l with loader := Loader.step^[k] l.loader } := by
  induction k with
  | zero => rfl
  | succ k ih => rw [Function.iterate_succ_apply', ih, Function.iterate_succ_apply']

/-- The main loop may take any number of steps. -/
theorem run_main {l₀ l : Link} {tr : List (Link × LinkEvent × Link)} (h : Run LinkStep l₀ tr l)
    (k : ℕ) : ∃ tr', Run LinkStep l₀ (tr ++ tr') { l with loader := Loader.step^[k] l.loader } ∧
      ∀ x ∈ tr', x.2.1 = .main := by
  obtain ⟨tr', hrun, hlabel⟩ := h.iterate (fun l => LinkStep.main l) k
  exact ⟨tr', iterate_main l k ▸ hrun, hlabel⟩

/-- The allocation returns and `network_set_dest` runs, with no frame in between. -/
theorem run_setDest {l₀ l : Link} {tr : List (Link × LinkEvent × Link)} (h : Run LinkStep l₀ tr l)
    {size dest : ℕ} (hpc : l.loader.pc = .alloc size) (hdest : dest ≠ 0)
    (hend : dest + size ≤ 2 ^ 64) :
    ∃ tr', Run LinkStep l₀ (tr ++ tr')
      { l with
        loader := ⟨{ l.loader.net with rxDest := dest, rxExpected := size, rxReceived := 0 },
          .pollPayload dest size⟩
        base := l.mem } ∧ ∀ x ∈ tr', x.2.1 ≠ .send := by
  obtain ⟨tr', hrun, hmain⟩ := run_main (h.snoc (@LinkStep.alloc l size dest l.mem hpc hdest hend)) 3
  rw [List.append_assoc, List.singleton_append] at hrun
  refine ⟨_, hrun, fun x hx => ?_⟩
  rcases List.mem_cons.mp hx with rfl | hx
  · simp
  · rw [hmain x hx]
    simp

end MathUnikernel.Network
