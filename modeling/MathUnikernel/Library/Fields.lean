import MathUnikernel.Library.ByteStore

/-!
# Fields of a record

A record lies at consecutive addresses; a field is a little-endian number at an offset of it.
-/

namespace Fields
open ByteStore

/-- The `n` low bytes of a number, least significant first. -/
def bytes : ℕ → ℕ → List UInt8
  | 0, _ => []
  | n + 1, v => UInt8.ofNat v :: bytes n (v / 256)

def value : List UInt8 → ℕ
  | [] => 0
  | b :: bs => b.toNat + 256 * value bs

@[simp] theorem length_bytes (n v : ℕ) : (bytes n v).length = n := by
  induction n generalizing v with
  | zero => rfl
  | succ n ih => rw [bytes, List.length_cons, ih]

theorem value_bytes (n v : ℕ) : value (bytes n v) = v % 256 ^ n := by
  induction n generalizing v with
  | zero => simp [bytes, value, Nat.mod_one]
  | succ n ih =>
    rw [bytes, value, ih, UInt8.toNat_ofNat', pow_succ' 256 n]
    exact Nat.mod_mul.symm

structure Field where
  offset : ℕ
  size : ℕ

/-- The field lies below another one or above it. -/
def Field.Apart (f g : Field) : Prop := f.offset + f.size ≤ g.offset ∨ g.offset + g.size ≤ f.offset

theorem Field.Apart.symm {f g : Field} (h : f.Apart g) : g.Apart f := Or.symm h

instance (f g : Field) : Decidable (f.Apart g) := inferInstanceAs (Decidable (_ ∨ _))

variable {α : Type*} (addr : ℕ → α) (f g : Field) (v : ℕ) (mem : α → UInt8)

def fetch : ℕ := value ((List.range f.size).map fun i => mem (addr (f.offset + i)))

theorem fetch_congr {mem' : α → UInt8}
    (h : ∀ i, f.offset ≤ i → i < f.offset + f.size → mem' (addr i) = mem (addr i)) :
    fetch addr f mem' = fetch addr f mem := by
  unfold fetch
  congr 1
  apply List.map_congr_left
  intro i hi
  exact h _ (Nat.le_add_right _ _) (Nat.add_lt_add_left (List.mem_range.mp hi) _)

variable [DecidableEq α]

def put : α → UInt8 := write mem (storesFrom addr f.offset (bytes f.size v))

theorem put_outside {a : α} (h : ∀ i, f.offset ≤ i → i < f.offset + f.size → addr i ≠ a) :
    put addr f v mem a = mem a := by
  apply write_storesFrom_outside
  rw [length_bytes]
  exact h

variable {size : ℕ} (hinj : ∀ i < size, ∀ j < size, addr i = addr j → i = j)
include hinj

/-- A field holds what was stored in it, to its size. -/
theorem fetch_put (hf : f.offset + f.size ≤ size) :
    fetch addr f (put addr f v mem) = v % 256 ^ f.size := by
  have hbytes : (List.range f.size).map (fun i => put addr f v mem (addr (f.offset + i))) =
      bytes f.size v := by
    apply List.ext_getElem (by simp)
    intro i hi hi'
    rw [List.getElem_map, List.getElem_range, put, write_storesFrom _ _ hi']
    intro j k _ hj _ hk
    rw [length_bytes] at hj hk
    exact hinj j (hj.trans_le hf) k (hk.trans_le hf)
  rw [fetch, hbytes, value_bytes]

/-- A store to a field leaves the others as they are. -/
theorem fetch_put_of_apart (h : f.Apart g) (hf : f.offset + f.size ≤ size)
    (hg : g.offset + g.size ≤ size) : fetch addr g (put addr f v mem) = fetch addr g mem := by
  apply fetch_congr
  intro i hlo hhi
  apply put_outside
  intro j hjlo hjhi heq
  have hji := hinj j (by omega) i (by omega) heq
  unfold Field.Apart at h
  omega

omit hinj in
/-- Stores to fields, one after the other. -/
def putAll (stores : List (Field × ℕ)) (mem : α → UInt8) : α → UInt8 :=
  stores.foldl (fun mem store => put addr store.1 store.2 mem) mem

omit hinj in
theorem putAll_outside {stores : List (Field × ℕ)} {a : α} (h : ∀ i < size, addr i ≠ a)
    (hsize : ∀ store ∈ stores, store.1.offset + store.1.size ≤ size) :
    putAll addr stores mem a = mem a := by
  induction stores generalizing mem with
  | nil => rfl
  | cons store stores ih =>
    have hfirst := hsize store List.mem_cons_self
    rw [putAll, List.foldl_cons]
    refine (ih _ fun s hs => hsize s (List.mem_cons_of_mem _ hs)).trans ?_
    exact put_outside addr _ _ _ fun i _ hi => h i (by omega)

theorem fetch_putAll_of_apart {stores : List (Field × ℕ)}
    (h : ∀ store ∈ stores, store.1.Apart g ∧ store.1.offset + store.1.size ≤ size)
    (hg : g.offset + g.size ≤ size) : fetch addr g (putAll addr stores mem) = fetch addr g mem := by
  induction stores generalizing mem with
  | nil => rfl
  | cons store stores ih =>
    obtain ⟨hapart, hsize⟩ := h store List.mem_cons_self
    have hrest := ih (put addr store.1 store.2 mem) fun s hs => h s (List.mem_cons_of_mem _ hs)
    exact hrest.trans (fetch_put_of_apart addr _ _ _ _ hinj hapart hsize hg)

/-- Stores to fields apart from each other leave each value where it was stored. -/
theorem fetch_putAll_of_mem {stores : List (Field × ℕ)}
    (hpair : stores.Pairwise fun s t => s.1.Apart t.1)
    (hsize : ∀ store ∈ stores, store.1.offset + store.1.size ≤ size) (h : (f, v) ∈ stores) :
    fetch addr f (putAll addr stores mem) = v % 256 ^ f.size := by
  induction stores generalizing mem with
  | nil => exact absurd h List.not_mem_nil
  | cons store stores ih =>
    obtain ⟨hfirst, hpair⟩ := List.pairwise_cons.mp hpair
    rcases List.mem_cons.mp h with rfl | h
    · have hf := hsize _ List.mem_cons_self
      have hrest : ∀ s ∈ stores, s.1.Apart f ∧ s.1.offset + s.1.size ≤ size :=
        fun s hs => ⟨(hfirst s hs).symm, hsize s (List.mem_cons_of_mem _ hs)⟩
      exact (fetch_putAll_of_apart addr f _ hinj hrest hf).trans (fetch_put addr f v mem hinj hf)
    · exact ih _ hpair (fun s hs => hsize s (List.mem_cons_of_mem _ hs)) h

end Fields
