import MathUnikernel.Library.RadixTree
import MathUnikernel.Library.Runs

/-!
# Cached walks

A processor keeps results of earlier walks of a radix tree: tables it has come to, and leaves that
walks have ended in.  It may fill and drop them at any time, and it does not notice writes to the
tree.  A flush drops what is cached for one path.
-/

namespace WalkCache
open RadixTree Runs

variable {F I E V σ α : Type*}

structure Cache (I F V : Type*) where
  links : Set (List I × F)
  leaves : Set (List I × V)

/-- A flush drops the leaves on the way of `q`, and all tables. -/
def Cache.flush (c : Cache I F V) (q : List I) : Cache I F V := ⟨∅, {x ∈ c.leaves | ¬x.1 <+: q}⟩

/-- Where a walk may start. -/
def Cache.Known (c : Cache I F V) (root : F) (p : List I) (f : F) : Prop :=
  (p = [] ∧ f = root) ∨ (p, f) ∈ c.links

variable (R : Reading F E V) (mem : F → I → E) (l : ℕ) (root : F)

/-- The walk along `p` ends in the leaf `v` at the last index of `p`. -/
def Ends (p : List I) (v : V) : Prop :=
  ∃ p' i f, p = p' ++ [i] ∧ follow R mem l root p' = some f ∧
    R.link (l - p'.length) (mem f i) = none ∧ R.leaf (l - p'.length) (mem f i) = some v

/-- One entry read on a walk, or something dropped. -/
inductive Fill (c : Cache I F V) : Cache I F V → Prop
  | link {p : List I} {f g : F} {i : I} :
      c.Known root p f → R.link (l - p.length) (mem f i) = some g →
      Fill c { c with links := insert (p ++ [i], g) c.links }
  | leaf {p : List I} {f : F} {i : I} {v : V} :
      c.Known root p f → R.link (l - p.length) (mem f i) = none →
      R.leaf (l - p.length) (mem f i) = some v →
      Fill c { c with leaves := insert (p ++ [i], v) c.leaves }
  | drop {c' : Cache I F V} : c'.links ⊆ c.links → c'.leaves ⊆ c.leaves → Fill c c'

/-- What an access along `q` may find: a cached leaf, or the end of a walk from where it may
start. -/
inductive Cache.Translates (c : Cache I F V) (q : List I) : Option V → Prop
  | hit {p : List I} {v : V} : (p, v) ∈ c.leaves → p <+: q → c.Translates q (some v)
  | walk {p t : List I} {f : F} :
      c.Known root p f → p ++ t = q → c.Translates q (find R mem (l - p.length) f t)

/-- What is cached is what the tree has, except for the leaves at the given paths. -/
structure Coherent (off : Set (List I)) (c : Cache I F V) : Prop where
  links : ∀ p f, (p, f) ∈ c.links → follow R mem l root p = some f
  leaves : ∀ p v, (p, v) ∈ c.leaves → p ∉ off → Ends R mem l root p v

variable {R mem l root} {mem' : F → I → E} {c c' : Cache I F V} {off : Set (List I)}

theorem Ends.find {p q : List I} {v : V} (h : Ends R mem l root p v) (hq : p <+: q) :
    find R mem l root q = some v := by
  obtain ⟨p', i, f, rfl, hf, hlink, hleaf⟩ := h
  obtain ⟨t, rfl⟩ := hq
  exact find_append_of_some ((find_of_stop hf hlink []).trans hleaf) t

theorem coherent_empty : Coherent R mem l root off ⟨∅, ∅⟩ :=
  ⟨fun _ _ h => absurd h (Set.notMem_empty _), fun _ _ h _ => absurd h (Set.notMem_empty _)⟩

namespace Coherent

theorem known (h : Coherent R mem l root off c) {p : List I} {f : F} (hk : c.Known root p f) :
    follow R mem l root p = some f := by
  rcases hk with ⟨rfl, rfl⟩ | hk
  · exact follow_nil
  · exact h.links p f hk

theorem fill (h : Coherent R mem l root off c) (hf : Fill R mem l root c c') :
    Coherent R mem l root off c' := by
  cases hf with
  | @link p f g i hk hlink =>
    refine ⟨fun q k hq => ?_, h.leaves⟩
    rcases Set.mem_insert_iff.mp hq with hq | hq
    · obtain ⟨rfl, rfl⟩ := Prod.mk.inj hq
      rw [follow_snoc, h.known hk, Option.bind_some, hlink]
    · exact h.links q k hq
  | @leaf p f i v hk hlink hleaf =>
    refine ⟨h.links, fun q w hq hoff => ?_⟩
    rcases Set.mem_insert_iff.mp hq with hq | hq
    · obtain ⟨rfl, rfl⟩ := Prod.mk.inj hq
      exact ⟨p, i, f, rfl, h.known hk, hlink, hleaf⟩
    · exact h.leaves q w hq hoff
  | drop hlinks hleaves =>
    exact ⟨fun q k hq => h.links q k (hlinks hq), fun q w hq => h.leaves q w (hleaves hq)⟩

/-- A flush makes good for the leaves on its way. -/
theorem flush (h : Coherent R mem l root off c) (q : List I) :
    Coherent R mem l root {p ∈ off | ¬p <+: q} (c.flush q) := by
  refine ⟨fun p f hp => absurd hp (Set.notMem_empty _), fun p v hp hoff => ?_⟩
  obtain ⟨hp, hq⟩ := hp
  exact h.leaves p v hp fun hmem => hoff ⟨hmem, hq⟩

/-- An access that meets none of the given paths finds what the tree has. -/
theorem translates (h : Coherent R mem l root off c) {q : List I} {r : Option V}
    (hr : c.Translates R mem l root q r) (hoff : ∀ p ∈ off, ¬p <+: q) :
    r = find R mem l root q := by
  cases hr with
  | @hit p v hp hq => exact ((h.leaves p v hp fun hmem => hoff p hmem hq).find hq).symm
  | @walk p t f hk hq =>
    subst hq
    exact (find_append (h.known hk) t).symm

end Coherent

/-- Some translation can always be had: the walk from the root. -/
theorem translates_root (q : List I) : c.Translates R mem l root q (find R mem l root q) := by
  apply Cache.Translates.walk (p := []) (t := q)
  · exact .inl ⟨rfl, rfl⟩
  · rfl

/-! ## Writes -/

/-- The write moves no table, and changes no leaf but those at the given paths. -/
structure Keeps (R : Reading F E V) (mem mem' : F → I → E) (l : ℕ) (root : F) (off : Set (List I)) :
    Prop where
  follow : ∀ p f, follow R mem l root p = some f → RadixTree.follow R mem' l root p = some f
  ends : ∀ p v, p ∉ off → Ends R mem l root p v → Ends R mem' l root p v

theorem Keeps.trans {mem'' : F → I → E} {off' : Set (List I)} (h : Keeps R mem mem' l root off)
    (h' : Keeps R mem' mem'' l root off') : Keeps R mem mem'' l root (off ∪ off') := by
  refine ⟨fun p f hp => h'.follow p f (h.follow p f hp), fun p v hp hends => ?_⟩
  rw [Set.mem_union, not_or] at hp
  exact h'.ends p v hp.2 (h.ends p v hp.1 hends)

theorem Coherent.write {off' : Set (List I)} (h : Coherent R mem l root off c)
    (hk : Keeps R mem mem' l root off') : Coherent R mem' l root (off ∪ off') c := by
  refine ⟨fun p f hp => hk.follow p f (h.links p f hp), fun p v hp hoff => ?_⟩
  rw [Set.mem_union, not_or] at hoff
  exact hk.ends p v hoff.2 (h.leaves p v hp hoff.1)

/-- Nothing is written in the tables. -/
theorem keeps_of_agree (h : ∀ p f, follow R mem l root p = some f → mem' f = mem f) :
    Keeps R mem mem' l root ∅ := by
  have hfollow : ∀ p f, follow R mem l root p = some f → follow R mem' l root p = some f := by
    intro p
    induction p using List.reverseRecOn with
    | nil => exact fun f hf => hf
    | append_singleton p i ih =>
      intro f hf
      rw [follow_snoc, Option.bind_eq_some_iff] at hf
      obtain ⟨g, hg, hlink⟩ := hf
      rw [follow_snoc, ih g hg, Option.bind_some, h p g hg]
      exact hlink
  refine ⟨hfollow, fun p v _ hends => ?_⟩
  obtain ⟨p', i, f, rfl, hf, hlink, hleaf⟩ := hends
  refine ⟨p', i, f, rfl, hfollow p' f hf, ?_, ?_⟩
  · rwa [h p' f hf]
  · rwa [h p' f hf]

variable {p : List I} {f g : F} {i : I}

/-- A fresh table. -/
theorem keeps_of_tableLink (h : TableLink R mem mem' l root p f i g) :
    Keeps R mem mem' l root ∅ := by
  refine ⟨fun q k hq => h.follow_of_some hq, fun q v _ hends => ?_⟩
  obtain ⟨q', j, k, rfl, hk, hlink, hleaf⟩ := hends
  have hne : (k, j) ≠ (f, i) := by
    intro heq
    obtain ⟨rfl, rfl⟩ := Prod.mk.inj heq
    rw [h.tree q' p k hk h.table, h.empty] at hleaf
    exact absurd hleaf (by simp)
  have hentry : mem' k j = mem k j := h.rest k j (fun heq => h.fresh q' (heq ▸ hk)) hne
  exact ⟨q', j, k, rfl, h.follow_of_some hk, hentry ▸ hlink, hentry ▸ hleaf⟩

/-- A leaf written. -/
theorem keeps_of_leafWrite (h : LeafWrite R mem mem' l root p f i) :
    Keeps R mem mem' l root {p ++ [i]} := by
  refine ⟨fun q k hq => (h.follow_eq q).trans hq, fun q v hoff hends => ?_⟩
  obtain ⟨q', j, k, rfl, hk, hlink, hleaf⟩ := hends
  have hne : (k, j) ≠ (f, i) := by
    intro heq
    obtain ⟨rfl, rfl⟩ := Prod.mk.inj heq
    exact hoff (by rw [h.tree q' p k hk h.table]; rfl)
  have hentry := h.rest k j hne q' hk
  exact ⟨q', j, k, rfl, (h.follow_eq q').trans hk, hentry ▸ hlink, hentry ▸ hleaf⟩

/-! ## Taking tables away -/

/-- `new` is `old` with the entry at `path` rewritten; the tables below it stay in memory. -/
structure Rewritten (R : Reading F E V) (old new : F → I → E) (l : ℕ) (root : F) (path : List I) :
    Prop where
  off : AgreeOff R old new l root path
  below : ∀ q f, path <+: q → follow R old l root q = some f → new f = old f

/-- Until the flush, what is cached below `path` may be as it was. -/
structure Torn (R : Reading F E V) (old new : F → I → E) (l : ℕ) (root : F) (path : List I)
    (c : Cache I F V) : Prop where
  links : ∀ p f, (p, f) ∈ c.links →
    follow R new l root p = some f ∨ (path <+: p ∧ follow R old l root p = some f)
  leaves : ∀ p v, (p, v) ∈ c.leaves →
    Ends R new l root p v ∨ (path <+: p ∧ Ends R old l root p v)

namespace Rewritten

variable {old new : F → I → E} {path : List I} (h : Rewritten R old new l root path)
include h

theorem torn (hc : Coherent R old l root ∅ c) : Torn R old new l root path c := by
  refine ⟨fun p f hp => ?_, fun p v hp => ?_⟩
  · have hold := hc.links p f hp
    by_cases hpre : path <+: p
    · exact .inr ⟨hpre, hold⟩
    · exact .inl ((h.off.follow_eq p hpre).trans hold)
  · have hold := hc.leaves p v hp (Set.notMem_empty p)
    by_cases hpre : path <+: p
    · exact .inr ⟨hpre, hold⟩
    · obtain ⟨p', i, f, rfl, hf, hlink, hleaf⟩ := hold
      have hpre' : ¬path <+: p' := fun hp' => hpre (hp'.trans (List.prefix_append p' [i]))
      have hentry := h.off p' f i hf hpre
      exact .inl ⟨p', i, f, rfl, (h.off.follow_eq p' hpre').trans hf, hentry ▸ hlink, hentry ▸ hleaf⟩

theorem torn_known (hc : Torn R old new l root path c) {p : List I} {f : F}
    (hk : c.Known root p f) : follow R new l root p = some f ∨
      (path <+: p ∧ follow R old l root p = some f ∧ new f = old f) := by
  rcases hk with ⟨rfl, rfl⟩ | hk
  · exact .inl follow_nil
  · apply (hc.links p f hk).imp_right
    rintro ⟨hpre, hf⟩
    exact ⟨hpre, hf, h.below p f hpre hf⟩

theorem torn_fill (hc : Torn R old new l root path c) (hf : Fill R new l root c c') :
    Torn R old new l root path c' := by
  cases hf with
  | @link p f g i hk hlink =>
    refine ⟨fun q k hq => ?_, hc.leaves⟩
    rcases Set.mem_insert_iff.mp hq with hq | hq
    · obtain ⟨rfl, rfl⟩ := Prod.mk.inj hq
      rcases h.torn_known hc hk with hnew | ⟨hpre, hold, heq⟩
      · exact .inl (by rw [follow_snoc, hnew, Option.bind_some, hlink])
      · refine .inr ⟨hpre.trans (List.prefix_append p [i]), ?_⟩
        rw [follow_snoc, hold, Option.bind_some, ← heq, hlink]
    · exact hc.links q k hq
  | @leaf p f i v hk hlink hleaf =>
    refine ⟨hc.links, fun q w hq => ?_⟩
    rcases Set.mem_insert_iff.mp hq with hq | hq
    · obtain ⟨rfl, rfl⟩ := Prod.mk.inj hq
      rcases h.torn_known hc hk with hnew | ⟨hpre, hold, heq⟩
      · exact .inl ⟨p, i, f, rfl, hnew, hlink, hleaf⟩
      · rw [heq] at hlink hleaf
        exact .inr ⟨hpre.trans (List.prefix_append p [i]), p, i, f, rfl, hold, hlink, hleaf⟩
    · exact hc.leaves q w hq
  | drop hlinks hleaves =>
    exact ⟨fun q k hq => hc.links q k (hlinks hq), fun q w hq => hc.leaves q w (hleaves hq)⟩

end Rewritten

/-- A flush on whose way all leaves lie that were taken away. -/
theorem Torn.flush {old new : F → I → E} {path q : List I} (hc : Torn R old new l root path c)
    (hold : ∀ p v, path <+: p → Ends R old l root p v → p <+: q) :
    Coherent R new l root ∅ (c.flush q) := by
  refine ⟨fun p f hp => absurd hp (Set.notMem_empty _), fun p v hp _ => ?_⟩
  obtain ⟨hp, hq⟩ := hp
  rcases hc.leaves p v hp with hnew | ⟨hpre, hends⟩
  · exact hnew
  · exact absurd (hold p v hpre hends) hq

/-! ## Programs -/

/-- A write, with the path of the leaf it changes; a flush; or an access along a path, whose effect
depends on the leaf it finds. -/
inductive Op (F I E V : Type*)
  | write (page : Option (List I)) (f : (F → I → E) → F → I → E)
  | flush (q : List I)
  | access (q : List I) (f : V → (F → I → E) → F → I → E)

/-- From this memory, with the leaves at the paths of `off` written but not flushed, the program
ends in `final` with nothing left to flush, each access meets a leaf the tree has and that grants it,
and the memory is `fine` throughout. -/
def Safe (R : Reading F E V) (fine : (F → I → E) → Prop) (grants : V → Prop) (l : ℕ) (root : F)
    (final : F → I → E) : (F → I → E) → Set (List I) → List (Op F I E V) → Prop
  | mem, off, [] => fine mem ∧ mem = final ∧ off = ∅
  | mem, off, .write page f :: ops =>
    fine mem ∧ Keeps R mem (f mem) l root {p | page = some p} ∧
      Safe R fine grants l root final (f mem) (off ∪ {p | page = some p}) ops
  | mem, off, .flush q :: ops => Safe R fine grants l root final mem {p ∈ off | ¬p <+: q} ops
  | mem, off, .access q f :: ops =>
    fine mem ∧ ∃ v, find R mem l root q = some v ∧ grants v ∧ (∀ p ∈ off, ¬p <+: q) ∧
      Keeps R mem (f v mem) l root ∅ ∧ Safe R fine grants l root final (f v mem) off ops

variable {fine : (F → I → E) → Prop} {grants : V → Prop}

theorem Safe.start {final : F → I → E} {ops : List (Op F I E V)}
    (h : Safe R fine grants l root final mem off ops) : fine mem := by
  induction ops generalizing off with
  | nil => exact h.1
  | cons op ops ih =>
    cases op with
    | write | access => exact h.1
    | flush q => exact ih h

theorem Safe.finish {final : F → I → E} {ops : List (Op F I E V)}
    (h : Safe R fine grants l root final mem off ops) : fine final := by
  induction ops generalizing mem off with
  | nil => exact h.2.1 ▸ h.1
  | cons op ops ih =>
    cases op with
    | write page f => exact ih h.2.2
    | flush q => exact @ih mem _ h
    | access q f =>
      obtain ⟨-, v, -, -, -, -, hrest⟩ := h
      exact ih hrest

theorem safe_nil (h : fine mem) : Safe R fine grants l root mem mem ∅ [] := ⟨h, rfl, rfl⟩

theorem safe_write {final : F → I → E} {ops : List (Op F I E V)} {f : (F → I → E) → F → I → E}
    (hfine : fine mem) (hk : Keeps R mem (f mem) l root ∅)
    (h : Safe R fine grants l root final (f mem) off ops) :
    Safe R fine grants l root final mem off (.write none f :: ops) := by
  have hnone : {p : List I | none = some p} = ∅ := by
    ext p
    simp
  rw [Safe, hnone, Set.union_empty]
  exact ⟨hfine, hk, h⟩

/-- A leaf written, and flushed at once. -/
theorem safe_write_flush {final : F → I → E} {ops : List (Op F I E V)}
    {f : (F → I → E) → F → I → E} {p q : List I} (hfine : fine mem)
    (hk : Keeps R mem (f mem) l root {p}) (hq : p <+: q)
    (h : Safe R fine grants l root final (f mem) ∅ ops) :
    Safe R fine grants l root final mem ∅ (.write (some p) f :: .flush q :: ops) := by
  have hsome : {p' | some p = some p'} = {p} := by
    ext p'
    simp [eq_comm]
  have hflush : {p' ∈ ({p} : Set (List I)) | ¬p' <+: q} = ∅ := by
    ext p'
    simp only [Set.mem_ofPred_eq, Set.mem_singleton_iff, Set.mem_empty_iff_false, iff_false]
    rintro ⟨rfl, hnot⟩
    exact hnot hq
  rw [Safe, Safe, hsome, Set.empty_union, hflush]
  exact ⟨hfine, hk, h⟩

theorem Safe.append {mid final : F → I → E} {ops ops' : List (Op F I E V)}
    (h : Safe R fine grants l root mid mem off ops)
    (h' : Safe R fine grants l root final mid ∅ ops') :
    Safe R fine grants l root final mem off (ops ++ ops') := by
  induction ops generalizing mem off with
  | nil =>
    obtain ⟨-, rfl, rfl⟩ := h
    exact h'
  | cons op ops ih =>
    cases op with
    | write page f => exact ⟨h.1, h.2.1, ih h.2.2⟩
    | flush q => exact @ih mem _ h
    | access q f =>
      obtain ⟨hfine, v, hv, hgrants, hoff, hk, h⟩ := h
      exact ⟨hfine, v, hv, hgrants, hoff, hk, ih h⟩

/-! ## The processor -/

/-- What is specified so far, the memory, the cache, the paths of leaves written since they were
last flushed, and what is left to do of the call in progress. -/
structure State (σ F I E V : Type*) where
  spec : σ
  mem : F → I → E
  cache : Cache I F V
  dirty : Set (List I)
  todo : List (Op F I E V)

inductive Event (α : Type*)
  | call (a : α)
  | op
  | fill

/-- Calls one after another, each as its operations, with fills between any two.  An access that
finds no leaf, or one that does not grant it, faults. -/
inductive Step (R : Reading F E V) (grants : V → Prop) (l : ℕ) (root : F)
    (Call : σ → α → List (Op F I E V) → σ → Prop) :
    State σ F I E V → Event α → State σ F I E V → Prop
  | call {s : State σ F I E V} {a : α} {ops : List (Op F I E V)} {t : σ} :
      s.todo = [] → Call s.spec a ops t →
      Step R grants l root Call s (.call a) { s with spec := t, todo := ops }
  | write {s : State σ F I E V} {page : Option (List I)} {f : (F → I → E) → F → I → E}
      {rest : List (Op F I E V)} :
      s.todo = .write page f :: rest →
      Step R grants l root Call s .op
        { s with mem := f s.mem, dirty := s.dirty ∪ {p | page = some p}, todo := rest }
  | flush {s : State σ F I E V} {q : List I} {rest : List (Op F I E V)} :
      s.todo = .flush q :: rest →
      Step R grants l root Call s .op
        { s with cache := s.cache.flush q, dirty := {p ∈ s.dirty | ¬p <+: q}, todo := rest }
  | access {s : State σ F I E V} {q : List I} {f : V → (F → I → E) → F → I → E} {v : V}
      {rest : List (Op F I E V)} :
      s.todo = .access q f :: rest → s.cache.Translates R s.mem l root q (some v) → grants v →
      Step R grants l root Call s .op { s with mem := f v s.mem, todo := rest }
  | fill {s : State σ F I E V} {c : Cache I F V} :
      Fill R s.mem l root s.cache c → Step R grants l root Call s .fill { s with cache := c }

/-- The cache is coherent but for the dirty leaves, and what is left to do is safe and ends in the
memory specified. -/
structure Inv (R : Reading F E V) (fine : (F → I → E) → Prop) (grants : V → Prop) (l : ℕ) (root : F)
    (memOf : σ → F → I → E) (s : State σ F I E V) : Prop where
  coherent : Coherent R s.mem l root s.dirty s.cache
  safe : Safe R fine grants l root (memOf s.spec) s.mem s.dirty s.todo

namespace Inv

variable {Call : σ → α → List (Op F I E V) → σ → Prop} {memOf : σ → F → I → E}
  {s t : State σ F I E V}

theorem idle (h : Inv R fine grants l root memOf s) (htodo : s.todo = []) :
    s.mem = memOf s.spec ∧ s.dirty = ∅ := by
  have hsafe := h.safe
  rw [htodo] at hsafe
  exact hsafe.2

theorem step {e : Event α} (h : Inv R fine grants l root memOf s)
    (hstep : Step R grants l root Call s e t)
    (hcall : ∀ a ops, e = .call a → Call s.spec a ops t.spec → fine (memOf s.spec) →
      Safe R fine grants l root (memOf t.spec) (memOf s.spec) ∅ ops) :
    Inv R fine grants l root memOf t := by
  have hsafe := h.safe
  cases hstep with
  | call htodo hc =>
    refine ⟨h.coherent, ?_⟩
    obtain ⟨hmem, hdirty⟩ := h.idle htodo
    dsimp only
    rw [hmem, hdirty]
    exact hcall _ _ rfl hc (hmem ▸ hsafe.start)
  | write htodo =>
    rw [htodo] at hsafe
    obtain ⟨-, hk, hrest⟩ := hsafe
    exact ⟨h.coherent.write hk, hrest⟩
  | @flush q rest htodo =>
    rw [htodo] at hsafe
    exact ⟨h.coherent.flush q, hsafe⟩
  | access htodo htrans _ =>
    rw [htodo] at hsafe
    obtain ⟨-, v, hv, -, hoff, hk, hrest⟩ := hsafe
    -- the leaf found is the one of the tree
    have heq := (h.coherent.translates htrans hoff).trans hv
    rw [← Option.some.inj heq] at hk hrest
    have hcoherent := h.coherent.write hk
    rw [Set.union_empty] at hcoherent
    exact ⟨hcoherent, hrest⟩
  | fill hf => exact ⟨h.coherent.fill hf, hsafe⟩

/-- While something is left to do, the next operation can be done. -/
theorem progress (Call : σ → α → List (Op F I E V) → σ → Prop)
    (h : Inv R fine grants l root memOf s) {op : Op F I E V} {rest : List (Op F I E V)}
    (htodo : s.todo = op :: rest) :
    ∃ t, Step R grants l root Call s .op t ∧ t.todo = rest ∧ t.spec = s.spec := by
  have hsafe := h.safe
  rw [htodo] at hsafe
  cases op with
  | write page f => exact ⟨_, .write htodo, rfl, rfl⟩
  | flush q => exact ⟨_, .flush htodo, rfl, rfl⟩
  | access q f =>
    obtain ⟨-, v, hv, hgrants, -⟩ := hsafe
    have hroot := @translates_root F I E V R s.mem l root s.cache q
    rw [hv] at hroot
    exact ⟨_, .access htodo hroot hgrants, rfl, rfl⟩

end Inv

end WalkCache
