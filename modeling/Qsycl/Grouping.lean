/-
# The groups of terms

`group_qwc` puts each term in the first group that is compatible with it. The
groups partition the terms, in order, and any two terms of a group name the
same Pauli on every qubit that both touch (`groupQwc_spec`). So the two masks of
rotations that the shot path collects from a group are disjoint, and a Z never
meets an X or a Y.
-/
import Qsycl.ShotExpectation

namespace Qsycl.Native

open Qubits

/-! ### The order of the terms -/

section Order

variable {R : Type}

/-- A group of terms that came in order, all of them before term `t`. -/
structure Group.Ordered (t : ℕ) (g : Group) : Prop where
  ne_nil : g.terms ≠ []
  increasing : g.terms.Pairwise (· < ·)
  before : ∀ i ∈ g.terms, i < t

theorem Group.Ordered.mono {g : Group} {t : ℕ} (h : g.Ordered t) : g.Ordered (t + 1) :=
  ⟨h.ne_nil, h.increasing, fun i hi => (h.before i hi).trans (Nat.lt_succ_self t)⟩

theorem Group.Ordered.append {g : Group} {t : ℕ} (h : g.Ordered t) (basis : ℕ → Option ℕ) :
    Group.Ordered (t + 1) ⟨g.terms ++ [t], basis⟩ := by
  refine ⟨List.append_ne_nil_of_right_ne_nil _ (List.cons_ne_nil _ _), ?_, fun i hi => ?_⟩
  · refine List.pairwise_append.mpr ⟨h.increasing, List.pairwise_singleton _ _, fun i hi j hj => ?_⟩
    rw [List.mem_singleton.mp hj]
    exact h.before i hi
  · rcases List.mem_append.mp hi with hi | hi
    · exact (h.before i hi).trans (Nat.lt_succ_self t)
    · rw [List.mem_singleton.mp hi]
      exact Nat.lt_succ_self t

theorem placeTerm_ordered (n : ℕ) (m : PauliMask R) (t : ℕ) : ∀ {groups : List Group},
    (∀ g ∈ groups, g.Ordered t) → ∀ g ∈ placeTerm n m t groups, g.Ordered (t + 1)
  | [], _, g, hg => by
    rw [placeTerm, List.mem_singleton] at hg
    rw [hg]
    refine ⟨List.cons_ne_nil _ _, List.pairwise_singleton _ _, fun i hi => ?_⟩
    rw [List.mem_singleton.mp hi]
    exact Nat.lt_succ_self t
  | g' :: groups, h, g, hg => by
    have hrest := fun g hg => h g (List.mem_cons_of_mem _ hg)
    unfold placeTerm at hg
    split at hg
    · rcases List.mem_cons.mp hg with rfl | hg
      · exact (h g' List.mem_cons_self).append _
      · exact (hrest g hg).mono
    · rcases List.mem_cons.mp hg with rfl | hg
      · exact (h g List.mem_cons_self).mono
      · exact placeTerm_ordered n m t hrest g hg

theorem placeTerms_ordered (n : ℕ) : ∀ (masks : List (PauliMask R)) (t : ℕ) {groups : List Group},
    (∀ g ∈ groups, g.Ordered t) →
    ∀ g ∈ (masks.zipIdx t).foldl (fun groups (m, t) => placeTerm n m t groups) groups,
      g.Ordered (t + masks.length)
  | [], t, groups, h, g, hg => h g hg
  | m :: masks, t, groups, h, g, hg => by
    have ih := placeTerms_ordered n masks (t + 1) (placeTerm_ordered n m t h) g hg
    rwa [List.length_cons, Nat.add_comm masks.length, ← Nat.add_assoc]

theorem groupQwc_ordered (obs : Observable R) {group : List ℕ} (hg : group ∈ groupQwc obs) :
    group ≠ [] ∧ group.Pairwise (· < ·) := by
  obtain ⟨g, hmem, rfl⟩ := List.mem_map.mp hg
  have h := @placeTerms_ordered R obs.numQubits obs.masks 0 [] nofun g hmem
  exact ⟨h.ne_nil, h.increasing⟩

end Order

/-! ### One Pauli on each qubit -/

section Agreement

variable {R : Type} {m m' : PauliMask R} {q : ℕ}

/-- The basis of a term on a qubit is its Pauli there. -/
theorem pauli_eq_of_termBasis_eq (h : termBasis m q = termBasis m' q) : m.pauli q = m'.pauli q := by
  unfold termBasis at h
  unfold PauliMask.pauli
  cases hx : m.x.testBit q <;> cases hz : m.z.testBit q <;> cases hx' : m'.x.testBit q <;>
    cases hz' : m'.z.testBit q <;> simp [hx, hz, hx', hz'] at h ⊢

theorem touches_iff : (m.x ||| m.z).testBit q = true ↔ m.pauli q ≠ .I := by
  rw [Nat.testBit_or, PauliMask.pauli]
  cases m.x.testBit q <;> cases m.z.testBit q <;> simp [Pauli.ofBits]

end Agreement

/-- The masks of a group. -/
def groupMasks (obs : Observable ℝ) (group : List ℕ) : List (PauliMask ℝ) := group.map (maskOf obs)

/-- The qubits that the shot path rotates from X, as it collects them. -/
def needsX (masks : List (PauliMask ℝ)) : ℕ := masks.foldl (fun needs m => needs ||| Nat.ldiff m.x m.z) 0

/-- The qubits that it rotates from Y. -/
def needsY (masks : List (PauliMask ℝ)) : ℕ := masks.foldl (fun needs m => needs ||| (m.x &&& m.z)) 0

theorem testBit_needsX (masks : List (PauliMask ℝ)) (q : ℕ) :
    (needsX masks).testBit q = true ↔ ∃ m ∈ masks, m.pauli q = .X := by
  rw [needsX, testBit_foldl_or, Nat.zero_testBit, Bool.false_or, List.any_eq_true]
  refine exists_congr fun m => and_congr_right fun _ => ?_
  rw [Nat.testBit_ldiff, PauliMask.pauli]
  cases m.x.testBit q <;> cases m.z.testBit q <;> simp [Pauli.ofBits]

theorem testBit_needsY (masks : List (PauliMask ℝ)) (q : ℕ) :
    (needsY masks).testBit q = true ↔ ∃ m ∈ masks, m.pauli q = .Y := by
  rw [needsY, testBit_foldl_or, Nat.zero_testBit, Bool.false_or, List.any_eq_true]
  refine exists_congr fun m => and_congr_right fun _ => ?_
  rw [Nat.testBit_and, PauliMask.pauli]
  cases m.x.testBit q <;> cases m.z.testBit q <;> simp [Pauli.ofBits]

/-- The contract of `group_qwc`. -/
structure QwcGroups (obs : Observable ℝ) (groups : List (List ℕ)) : Prop where
  /-- Every index is in exactly one group. -/
  partition : groups.flatten.Perm (List.range obs.masks.length)
  nonempty : ∀ group ∈ groups, group ≠ []
  increasing : ∀ group ∈ groups, group.Pairwise (· < ·)
  /-- Two terms of a group name the same Pauli on a qubit that both touch. -/
  agree : ∀ group ∈ groups, ∀ m ∈ groupMasks obs group, ∀ m' ∈ groupMasks obs group, ∀ q,
    m.pauli q ≠ .I → m'.pauli q ≠ .I → m.pauli q = m'.pauli q
  disjoint : ∀ group ∈ groups, ∀ q, ¬ ((needsX (groupMasks obs group)).testBit q = true ∧
    (needsY (groupMasks obs group)).testBit q = true)
  /-- A Z excludes X and Y on its qubit. -/
  apart : ∀ group ∈ groups, ∀ m ∈ groupMasks obs group, ∀ m' ∈ groupMasks obs group, ∀ q,
    m.pauli q = .Z → m'.pauli q ≠ .X ∧ m'.pauli q ≠ .Y

/-- A term touches no qubit past those of the observable. -/
theorem lt_of_touches {n q : ℕ} {m : PauliMask ℝ} (h : m.Fits n)
    (hq : (m.x ||| m.z).testBit q = true) : q < n := by
  by_contra hn
  have hlt : m.x ||| m.z < 2 ^ q :=
    (Nat.or_lt_two_pow h.x h.z).trans_le (Nat.pow_le_pow_right (by norm_num) (by omega))
  rw [Nat.testBit_lt_two_pow hlt] at hq
  exact Bool.false_ne_true hq

theorem groupQwc_pauli {obs : Observable ℝ} (ho : obs.Legal) {group : List ℕ} (hg : group ∈ groupQwc obs)
    {m m' : PauliMask ℝ} (hm : m ∈ groupMasks obs group) (hm' : m' ∈ groupMasks obs group) {q : ℕ}
    (hq : m.pauli q ≠ .I) (hq' : m'.pauli q ≠ .I) : m.pauli q = m'.pauli q := by
  obtain ⟨basis, hbasis⟩ := groupQwc_agree obs hg
  have hread : ∀ m ∈ groupMasks obs group, m.pauli q ≠ .I → basis q = some (termBasis m q) := by
    intro m hm hq
    obtain ⟨t, ht, rfl⟩ := List.mem_map.mp hm
    obtain ⟨m, hget, hb⟩ := hbasis t ht
    rw [maskOf_eq hget] at hq ⊢
    have htouch := touches_iff.mpr hq
    exact hb q (lt_of_touches (ho.fits m (List.mem_of_getElem? hget)) htouch) htouch
  have heq := (hread m hm hq).symm.trans (hread m' hm' hq')
  exact pauli_eq_of_termBasis_eq (Option.some.inj heq)

/-- **`group_qwc` meets its contract**, for every observable. -/
theorem groupQwc_spec {n : ℕ} {terms : List (Term ℝ)} {obs : Observable ℝ}
    (hobs : Observable.ofTerms n terms = .ok obs) : QwcGroups obs (groupQwc obs) := by
  have ho := legal_of_ofTerms hobs
  refine ⟨groupQwc_perm obs, fun group hg => (groupQwc_ordered obs hg).1,
    fun group hg => (groupQwc_ordered obs hg).2, fun group hg m hm m' hm' q => groupQwc_pauli ho hg hm hm',
    fun group hg q h => ?_, fun group hg m hm m' hm' q hz => ?_⟩
  · obtain ⟨m, hm, hx⟩ := (testBit_needsX _ q).mp h.1
    obtain ⟨m', hm', hy⟩ := (testBit_needsY _ q).mp h.2
    have heq := groupQwc_pauli ho hg hm hm' (q := q) (by simp [hx]) (by simp [hy])
    simp [hx, hy] at heq
  · have hsame : m'.pauli q ≠ .I → m'.pauli q = .Z := fun hne => by
      rw [← hz]
      exact groupQwc_pauli ho hg hm' hm hne (by simp [hz])
    constructor
    · intro hx
      have := hsame (by simp [hx])
      simp [hx] at this
    · intro hy
      have := hsame (by simp [hy])
      simp [hy] at this

/-- X₀ X₁, Z₀, Y₁ X₂ and X₀ on three qubits. -/
theorem groupQwc_spec_three :
    let obs : Observable ℝ := ⟨3, [⟨1, 3, 0, 0⟩, ⟨2, 0, 1, 0⟩, ⟨3, 6, 2, 1⟩, ⟨4, 1, 0, 0⟩]⟩
    groupQwc obs = [[0, 3], [1, 2]] ∧ QwcGroups obs (groupQwc obs) := by
  intro obs
  have hobs : Observable.ofTerms 3 [.dense 1 ['X', 'X', 'I'], .sparse 2 [('Z', 0)],
      .sparse 3 [('Y', 1), ('X', 2)], .sparse 4 [('X', 0)]] = .ok obs := rfl
  exact ⟨rfl, groupQwc_spec hobs⟩

end Qsycl.Native
