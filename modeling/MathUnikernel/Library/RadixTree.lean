import Mathlib

/-!
# Radix trees in a memory

A memory assigns to every frame an array of entries.  At level `l` an entry either links to the
frame of a table of level `l - 1` or ends the walk, with a leaf or with nothing.  A path is a list
of indices, the root's first.
-/

namespace RadixTree

variable {F I E V : Type*}

/-- How entries are read at each level. -/
structure Reading (F E V : Type*) where
  link : ℕ → E → Option F
  leaf : ℕ → E → Option V

variable (R : Reading F E V)

/-- The frame of the table at the end of a path. -/
def follow (mem : F → I → E) : ℕ → F → List I → Option F
  | _, f, [] => some f
  | l, f, i :: p => (R.link l (mem f i)).bind fun g => follow mem (l - 1) g p

/-- The leaf a walk along a path ends in. -/
def find (mem : F → I → E) : ℕ → F → List I → Option V
  | _, _, [] => none
  | l, f, i :: p =>
    match R.link l (mem f i) with
    | some g => find mem (l - 1) g p
    | none => R.leaf l (mem f i)

variable {R} {mem mem' : F → I → E} {l : ℕ} {root : F}

@[simp] theorem follow_nil : follow R mem l root [] = some root := rfl

theorem follow_append (p q : List I) :
    follow R mem l root (p ++ q) =
      (follow R mem l root p).bind fun f => follow R mem (l - p.length) f q := by
  induction p generalizing l root with
  | nil => simp
  | cons i p ih =>
    simp only [List.cons_append, follow, List.length_cons]
    cases R.link l (mem root i) with
    | none => rfl
    | some g => simp [ih, Nat.sub_sub, Nat.add_comm 1]

theorem follow_snoc (p : List I) (i : I) :
    follow R mem l root (p ++ [i]) =
      (follow R mem l root p).bind fun f => R.link (l - p.length) (mem f i) := by
  rw [follow_append]
  congr 1
  funext f
  simp [follow]

theorem follow_append_of_none {p : List I} (h : follow R mem l root p = none) (q : List I) :
    follow R mem l root (p ++ q) = none := by
  rw [follow_append, h, Option.bind_none]

theorem follow_prefix {p q : List I} {g : F} (hp : p <+: q)
    (h : follow R mem l root q = some g) : ∃ f, follow R mem l root p = some f := by
  obtain ⟨t, rfl⟩ := hp
  rw [follow_append, Option.bind_eq_some_iff] at h
  obtain ⟨f, hf, -⟩ := h
  exact ⟨f, hf⟩

theorem find_append {p : List I} {f : F} (h : follow R mem l root p = some f) (q : List I) :
    find R mem l root (p ++ q) = find R mem (l - p.length) f q := by
  induction p generalizing l root with
  | nil => obtain rfl : root = f := by simpa using h
           rfl
  | cons i p ih =>
    simp only [follow, Option.bind_eq_some_iff] at h
    obtain ⟨g, hg, h⟩ := h
    simp only [List.cons_append, find, hg, List.length_cons]
    rw [ih h, Nat.sub_sub, Nat.add_comm 1]

/-- The walk ends at the entry `i` of the table at `p`. -/
theorem find_of_stop {p : List I} {f : F} {i : I} (h : follow R mem l root p = some f)
    (hstop : R.link (l - p.length) (mem f i) = none) (t : List I) :
    find R mem l root (p ++ i :: t) = R.leaf (l - p.length) (mem f i) := by
  rw [find_append h]
  simp only [find, hstop]

theorem find_of_follow {q : List I} {g : F} (h : follow R mem l root q = some g) :
    find R mem l root q = none := by
  have := find_append h []
  rw [List.append_nil] at this
  rw [this, find]

/-- A walk that ends in a leaf ends in it however long the path goes on. -/
theorem find_append_of_some {p : List I} {v : V} (h : find R mem l root p = some v) (q : List I) :
    find R mem l root (p ++ q) = some v := by
  induction p generalizing l root with
  | nil => exact absurd h (by simp [find])
  | cons i p ih =>
    simp only [List.cons_append, find] at h ⊢
    cases hlink : R.link l (mem root i) with
    | none => rwa [hlink] at h
    | some g =>
      rw [hlink] at h
      exact ih h

/-- Every walk either ends at an entry without a link or reaches a table. -/
theorem stop_or_follow (q : List I) :
    (∃ p i t f, q = p ++ i :: t ∧ follow R mem l root p = some f ∧
      R.link (l - p.length) (mem f i) = none) ∨ ∃ g, follow R mem l root q = some g := by
  induction q using List.reverseRecOn with
  | nil => exact .inr ⟨root, rfl⟩
  | append_singleton q j ih =>
    rcases ih with ⟨p, i, t, f, rfl, hf, hstop⟩ | ⟨g, hg⟩
    · exact .inl ⟨p, i, t ++ [j], f, by simp, hf, hstop⟩
    · cases hlink : R.link (l - q.length) (mem g j) with
      | none => exact .inl ⟨q, j, [], g, rfl, hg, hlink⟩
      | some h => exact .inr ⟨h, by rw [follow_snoc, hg, Option.bind_some, hlink]⟩

/-! ## Changing what lies under one entry -/

/-- Outside the subtree under the entry at `path`, the memories hold the same tables. -/
def AgreeOff (R : Reading F E V) (mem mem' : F → I → E) (l : ℕ) (root : F) (path : List I) : Prop :=
  ∀ q f j, follow R mem l root q = some f → ¬path <+: q ++ [j] → mem' f j = mem f j

theorem AgreeOff.follow_eq {path : List I} (h : AgreeOff R mem mem' l root path) (q : List I)
    (hq : ¬path <+: q) : follow R mem' l root q = follow R mem l root q := by
  induction q using List.reverseRecOn with
  | nil => rfl
  | append_singleton q j ih =>
    have hprev := ih fun hp => hq (hp.trans (List.prefix_append q [j]))
    rw [follow_snoc, follow_snoc, hprev]
    cases hf : follow R mem l root q with
    | none => rfl
    | some f => rw [Option.bind_some, Option.bind_some, h q f j hf hq]

theorem AgreeOff.find_eq {path : List I} (h : AgreeOff R mem mem' l root path) (q : List I)
    (hq : ¬path <+: q) : find R mem' l root q = find R mem l root q := by
  rcases @stop_or_follow F I E V R mem l root q with
    ⟨p, i, t, f, rfl, hf, hstop⟩ | ⟨g, hg⟩
  · have hpi : ¬path <+: p ++ [i] := fun hp => hq (hp.trans ⟨t, by simp⟩)
    have hp : ¬path <+: p := fun hp => hpi (hp.trans (List.prefix_append p [i]))
    have hentry := h p f i hf hpi
    rw [find_of_stop hf hstop t, find_of_stop ((h.follow_eq p hp).trans hf) (hentry ▸ hstop) t, hentry]
  · rw [find_of_follow hg, find_of_follow ((h.follow_eq q hq).trans hg)]

/-- No path leads to frame `g`. -/
def Unreached (R : Reading F E V) (mem : F → I → E) (l : ℕ) (root g : F) : Prop :=
  ∀ p, follow R mem l root p ≠ some g

/-- No table is shared: each frame is at the end of one path at most. -/
def Tree (R : Reading F E V) (mem : F → I → E) (l : ℕ) (root : F) : Prop :=
  ∀ p q f, follow R mem l root p = some f → follow R mem l root q = some f → p = q

theorem Tree.agreeOff (h : Tree R mem l root) {p : List I} {f : F} {i : I}
    (hf : follow R mem l root p = some f)
    (hmem : ∀ g j, (g, j) ≠ (f, i) → ∀ q, follow R mem l root q = some g → mem' g j = mem g j) :
    AgreeOff R mem mem' l root (p ++ [i]) := by
  intro q g j hg hq
  refine hmem g j (fun heq => hq ?_) q hg
  obtain ⟨rfl, rfl⟩ := Prod.mk.inj heq
  rw [h p q g hf hg]

/-! ## Writing a leaf -/

/-- `mem'` is `mem` with the entry `i` of the table `f` at `p` rewritten; neither entry links. -/
structure LeafWrite (R : Reading F E V) (mem mem' : F → I → E) (l : ℕ) (root : F) (p : List I)
    (f : F) (i : I) : Prop where
  tree : Tree R mem l root
  table : follow R mem l root p = some f
  old : R.link (l - p.length) (mem f i) = none
  new : R.link (l - p.length) (mem' f i) = none
  rest : ∀ g j, (g, j) ≠ (f, i) → ∀ q, follow R mem l root q = some g → mem' g j = mem g j

namespace LeafWrite

variable {p : List I} {f : F} {i : I} (h : LeafWrite R mem mem' l root p f i)
include h

theorem agreeOff : AgreeOff R mem mem' l root (p ++ [i]) := h.tree.agreeOff h.table h.rest

/-- Writing an entry without a link over another moves no table. -/
theorem follow_eq (q : List I) : follow R mem' l root q = follow R mem l root q := by
  by_cases hq : p ++ [i] <+: q
  · obtain ⟨t, rfl⟩ := hq
    have hp : ¬p ++ [i] <+: p := fun hp => by simpa using hp.length_le
    rw [follow_append_of_none (p := p ++ [i]), follow_append_of_none (p := p ++ [i])]
    · rw [follow_snoc, h.table, Option.bind_some, h.old]
    · rw [follow_snoc, h.agreeOff.follow_eq p hp, h.table, Option.bind_some, h.new]
  · exact h.agreeOff.follow_eq q hq

theorem tree_after : Tree R mem' l root := by
  intro q q' g hq hq'
  rw [h.follow_eq] at hq hq'
  exact h.tree q q' g hq hq'

/-- Below the written entry the walk ends in it. -/
theorem find_of_prefix {q : List I} (hq : p ++ [i] <+: q) :
    find R mem' l root q = R.leaf (l - p.length) (mem' f i) := by
  obtain ⟨t, rfl⟩ := hq
  rw [List.append_assoc]
  exact find_of_stop ((h.follow_eq p).trans h.table) h.new t

/-- Every other walk ends where it did. -/
theorem find_of_not_prefix {q : List I} (hq : ¬p ++ [i] <+: q) :
    find R mem' l root q = find R mem l root q := h.agreeOff.find_eq q hq

end LeafWrite

/-! ## Linking a fresh table -/

/-- Every entry of frame `g` is blank at every level. -/
def Blank (R : Reading F E V) (mem : F → I → E) (g : F) : Prop :=
  ∀ l i, R.link l (mem g i) = none ∧ R.leaf l (mem g i) = none

theorem Blank.follow_cons {g : F} (h : Blank R mem g) (l : ℕ) (i : I) (p : List I) :
    follow R mem l g (i :: p) = none := by
  rw [follow, (h l i).1, Option.bind_none]

theorem Blank.find {g : F} (h : Blank R mem g) (l : ℕ) (p : List I) : find R mem l g p = none := by
  cases p with
  | nil => rfl
  | cons i p => simp only [RadixTree.find, (h l i).1, (h l i).2]

/-- `mem'` is `mem` with a blank frame `g`, so far in no table, linked at an empty entry. -/
structure TableLink (R : Reading F E V) (mem mem' : F → I → E) (l : ℕ) (root : F) (p : List I)
    (f : F) (i : I) (g : F) : Prop where
  tree : Tree R mem l root
  table : follow R mem l root p = some f
  fresh : Unreached R mem l root g
  old : R.link (l - p.length) (mem f i) = none
  empty : R.leaf (l - p.length) (mem f i) = none
  new : R.link (l - p.length) (mem' f i) = some g
  blank : Blank R mem' g
  rest : ∀ h j, h ≠ g → (h, j) ≠ (f, i) → mem' h j = mem h j

namespace TableLink

variable {p : List I} {f g : F} {i : I} (h : TableLink R mem mem' l root p f i g)
include h

theorem agreeOff : AgreeOff R mem mem' l root (p ++ [i]) :=
  h.tree.agreeOff h.table fun k j hne q hq => h.rest k j (fun heq => h.fresh q (heq ▸ hq)) hne

/-- The fresh table is at the end of the path that now links to it. -/
theorem follow_self : follow R mem' l root (p ++ [i]) = some g := by
  have hp : ¬p ++ [i] <+: p := fun hp => by simpa using hp.length_le
  rw [follow_snoc, h.agreeOff.follow_eq p hp, h.table, Option.bind_some, h.new]

theorem follow_of_prefix {t : List I} (ht : t ≠ []) :
    follow R mem' l root (p ++ [i] ++ t) = none := by
  rw [follow_append, h.follow_self, Option.bind_some]
  obtain ⟨j, t, rfl⟩ := List.exists_cons_of_ne_nil ht
  exact h.blank.follow_cons _ j t

/-- The tables after the link: those before it, and the fresh one. -/
theorem follow_cases {q : List I} {k : F} (hq : follow R mem' l root q = some k) :
    (q = p ++ [i] ∧ k = g) ∨ follow R mem l root q = some k := by
  by_cases hpre : p ++ [i] <+: q
  · obtain ⟨t, rfl⟩ := hpre
    by_cases ht : t = []
    · subst ht
      rw [List.append_nil, h.follow_self, Option.some.injEq] at hq
      exact .inl ⟨List.append_nil _, hq.symm⟩
    · rw [h.follow_of_prefix ht] at hq
      exact absurd hq (by simp)
  · exact .inr (h.agreeOff.follow_eq q hpre ▸ hq)

theorem follow_of_some {q : List I} {k : F} (hq : follow R mem l root q = some k) :
    follow R mem' l root q = some k := by
  refine (h.agreeOff.follow_eq q fun hpre => ?_).trans hq
  obtain ⟨t, rfl⟩ := hpre
  have hnone : follow R mem l root (p ++ [i]) = none := by
    rw [follow_snoc, h.table, Option.bind_some, h.old]
  rw [follow_append_of_none hnone] at hq
  exact absurd hq (by simp)

theorem tree_after : Tree R mem' l root := by
  intro q q' k hq hq'
  rcases h.follow_cases hq with ⟨rfl, rfl⟩ | hq <;> rcases h.follow_cases hq' with ⟨rfl, hk⟩ | hq'
  · rfl
  · exact absurd hq' (h.fresh q')
  · exact absurd (hk ▸ hq) (h.fresh q)
  · exact h.tree q q' k hq hq'

/-- A blank table where there was nothing leads no walk to a leaf and away from none. -/
theorem find_eq (q : List I) : find R mem' l root q = find R mem l root q := by
  by_cases hpre : p ++ [i] <+: q
  · obtain ⟨t, rfl⟩ := hpre
    have hstop := find_of_stop h.table h.old t
    rw [find_append h.follow_self, h.blank.find, List.append_assoc]
    exact (hstop.trans h.empty).symm
  · exact h.agreeOff.find_eq q hpre

end TableLink

end RadixTree
