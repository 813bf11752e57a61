import Mathlib

/-! Trees given by labelled edges between nodes. -/

namespace EdgeTree

variable {ν ε : Type*}

/-- The labels on a way from the root to a node, the last one first. -/
inductive Path (edge : ν → ε → ν → Prop) (root : ν) : List ε → ν → Prop where
  | root : Path edge root [] root
  | step {labels : List ε} {i j : ν} {e : ε} (earlier : Path edge root labels i) (hedge : edge i e j) :
    Path edge root (e :: labels) j

/-- The nodes are reached from the root, and one edge leads to each but the root. -/
structure IsTree (nodes : Set ν) (edge : ν → ε → ν → Prop) (root : ν) : Prop where
  root_mem : root ∈ nodes
  source_mem : ∀ i e j, edge i e j → i ∈ nodes
  target_mem : ∀ i e j, edge i e j → j ∈ nodes
  root_first : ∀ i e, ¬ edge i e root
  one_edge : ∀ i e i' e' j, edge i e j → edge i' e' j → i = i' ∧ e = e'
  reached : ∀ j ∈ nodes, ∃ labels, Path edge root labels j

variable {nodes : Set ν} {edge edge' : ν → ε → ν → Prop} {root : ν} {labels labels' : List ε} {i j : ν} {e : ε}

theorem Path.mono (h : Path edge root labels j) (hsub : ∀ i e j, edge i e j → edge' i e j) :
    Path edge' root labels j := by
  induction h with
  | root => exact .root
  | step _ hedge ih => exact .step ih (hsub _ _ _ hedge)

/-- A root alone. -/
theorem isTree_root (root : ν) (hedge : ∀ i e j, ¬ edge i e j) : IsTree {root} edge root where
  root_mem := rfl
  source_mem := fun i e j h => absurd h (hedge i e j)
  target_mem := fun i e j h => absurd h (hedge i e j)
  root_first := fun i e => hedge i e root
  one_edge := fun i e _ _ j h => absurd h (hedge i e j)
  reached := by
    rintro j rfl
    exact ⟨[], .root⟩

namespace IsTree

/-- There are no two ways to a node. -/
theorem path_unique (h : IsTree nodes edge root) (hpath : Path edge root labels j) (hpath' : Path edge root labels' j) :
    labels = labels' := by
  induction hpath generalizing labels' with
  | root =>
    cases hpath' with
    | root => rfl
    | step _ hedge => exact absurd hedge (h.root_first _ _)
  | step _ hedge ih =>
    cases hpath' with
    | root => exact absurd hedge (h.root_first _ _)
    | step hearlier hedge' =>
      obtain ⟨rfl, rfl⟩ := h.one_edge _ _ _ _ _ hedge hedge'
      rw [ih hearlier]

theorem exists_unique_path (h : IsTree nodes edge root) (hj : j ∈ nodes) : ∃! labels, Path edge root labels j := by
  obtain ⟨labels, hpath⟩ := h.reached j hj
  exact ⟨labels, hpath, fun _ hother => h.path_unique hother hpath⟩

theorem exists_unique_edge (h : IsTree nodes edge root) (hj : j ∈ nodes) (hroot : j ≠ root) :
    ∃! p : ν × ε, edge p.1 p.2 j := by
  obtain ⟨labels, hpath⟩ := h.reached j hj
  cases hpath with
  | root => exact absurd rfl hroot
  | @step _ i _ e _ hedge =>
    refine ⟨(i, e), hedge, ?_⟩
    rintro ⟨i', e'⟩ hedge'
    obtain ⟨rfl, rfl⟩ := h.one_edge _ _ _ _ _ hedge' hedge
    rfl

/-- A new node under an old one. -/
theorem add_leaf (h : IsTree nodes edge root) (hi : i ∈ nodes) (hj : j ∉ nodes)
    (hedge : ∀ a b c, edge' a b c ↔ edge a b c ∨ (a = i ∧ b = e ∧ c = j)) : IsTree (insert j nodes) edge' root where
  root_mem := Set.mem_insert_of_mem _ h.root_mem
  source_mem := by
    intro a b c hedge'
    rcases (hedge a b c).mp hedge' with hold | ⟨rfl, _, _⟩
    · exact Set.mem_insert_of_mem _ (h.source_mem a b c hold)
    · exact Set.mem_insert_of_mem _ hi
  target_mem := by
    intro a b c hedge'
    rcases (hedge a b c).mp hedge' with hold | ⟨_, _, rfl⟩
    · exact Set.mem_insert_of_mem _ (h.target_mem a b c hold)
    · exact Set.mem_insert _ _
  root_first := by
    intro a b hedge'
    rcases (hedge a b root).mp hedge' with hold | ⟨_, _, rfl⟩
    · exact h.root_first a b hold
    · exact hj h.root_mem
  one_edge := by
    intro a b a' b' c hfirst hsecond
    rcases (hedge a b c).mp hfirst with hold | ⟨rfl, rfl, rfl⟩
    · rcases (hedge a' b' c).mp hsecond with hold' | ⟨_, _, rfl⟩
      · exact h.one_edge a b a' b' c hold hold'
      · exact absurd (h.target_mem a b c hold) hj
    · rcases (hedge a' b' c).mp hsecond with hold' | ⟨rfl, rfl, _⟩
      · exact absurd (h.target_mem a' b' c hold') hj
      · exact ⟨rfl, rfl⟩
  reached := by
    have hkept : ∀ c ∈ nodes, ∃ labels, Path edge' root labels c := by
      intro c hc
      obtain ⟨labels, hpath⟩ := h.reached c hc
      exact ⟨labels, hpath.mono fun a b c hold => (hedge a b c).mpr (.inl hold)⟩
    rintro c (rfl | hc)
    · obtain ⟨labels, hpath⟩ := hkept i hi
      exact ⟨e :: labels, .step hpath ((hedge i e c).mpr (.inr ⟨rfl, rfl, rfl⟩))⟩
    · exact hkept c hc

/-- A node without edges is taken away with the edge that leads to it. -/
theorem remove_leaf (h : IsTree nodes edge root) (hroot : j ≠ root) (hleaf : ∀ b c, ¬ edge j b c)
    (hedge : ∀ a b c, edge' a b c ↔ edge a b c ∧ c ≠ j) : IsTree (nodes \ {j}) edge' root where
  root_mem := ⟨h.root_mem, hroot.symm⟩
  source_mem := by
    intro a b c hedge'
    have hold := ((hedge a b c).mp hedge').1
    refine ⟨h.source_mem a b c hold, ?_⟩
    rintro rfl
    exact hleaf b c hold
  target_mem := by
    intro a b c hedge'
    obtain ⟨hold, hne⟩ := (hedge a b c).mp hedge'
    exact ⟨h.target_mem a b c hold, hne⟩
  root_first := fun a b hedge' => h.root_first a b ((hedge a b root).mp hedge').1
  one_edge := fun a b a' b' c hfirst hsecond =>
    h.one_edge a b a' b' c ((hedge a b c).mp hfirst).1 ((hedge a' b' c).mp hsecond).1
  reached := by
    rintro c ⟨hc, hne⟩
    obtain ⟨labels, hpath⟩ := h.reached c hc
    refine ⟨labels, ?_⟩
    -- no way leads through the node
    induction hpath with
    | root => exact .root
    | @step _ a c b hearlier hold ih =>
      have ha : a ∉ ({j} : Set ν) := by
        rintro rfl
        exact hleaf b c hold
      exact .step (ih (h.source_mem a b c hold) ha) ((hedge a b c).mpr ⟨hold, hne⟩)

end IsTree

end EdgeTree
