/-
# Maps as sorted lists

A finite map is the list of its entries in increasing order of the keys, each
key once (`Sorted`). Two maps with the same lookups are then the same list
(`ext_lookup`), and inserting entries with distinct keys in any order gives
the sorted list of those entries (`lookup_insertAll`).

A map of counts is the `Tally` of a list; a list has one tally (`Tally.unique`).
-/
import Mathlib

namespace SortedMap

variable {κ ν : Type} [LinearOrder κ]

/-- The entries in increasing order of the keys. -/
def Sorted (m : List (κ × ν)) : Prop := m.Pairwise (·.1 < ·.1)

/-- The map with `v` at `k`. -/
def insert (k : κ) (v : ν) : List (κ × ν) → List (κ × ν)
  | [] => [(k, v)]
  | (k', v') :: m =>
    if k < k' then (k, v) :: (k', v') :: m
    else if k = k' then (k, v) :: m
    else (k', v') :: insert k v m

/-- The map after some insertions. -/
def insertAll (entries m : List (κ × ν)) : List (κ × ν) :=
  entries.foldl (fun m e => insert e.1 e.2 m) m

/-! ### Lookups -/

omit [LinearOrder κ] in
theorem lookup_entry [DecidableEq κ] (k : κ) (e : κ × ν) (m : List (κ × ν)) :
    (e :: m).lookup k = if k = e.1 then some e.2 else m.lookup k := by
  by_cases h : k = e.1
  · rw [if_pos h, h, List.lookup_cons_self]
  · have hb : (k == e.1) = false := by simpa using h
    rw [if_neg h, List.lookup, hb]

omit [LinearOrder κ] in
theorem lookup_eq_none [DecidableEq κ] {k : κ} {m : List (κ × ν)} (h : ∀ e ∈ m, e.1 ≠ k) :
    m.lookup k = none := by
  induction m with
  | nil => rfl
  | cons e m ih =>
    rw [lookup_entry, if_neg (h e List.mem_cons_self).symm]
    exact ih fun e he => h e (List.mem_cons_of_mem _ he)

theorem lookup_insert (k : κ) (v : ν) (k' : κ) : ∀ m : List (κ × ν),
    (insert k v m).lookup k' = if k' = k then some v else m.lookup k'
  | [] => by
    unfold insert
    rw [lookup_entry]
  | (k₁, v₁) :: m => by
    unfold insert
    split
    · rw [lookup_entry]
    · split
      · rename_i heq
        subst heq
        by_cases h : k' = k
        · rw [lookup_entry, if_pos h, if_pos h]
        · rw [lookup_entry, lookup_entry, if_neg h, if_neg h, if_neg h]
      · rename_i hnlt hne
        rw [lookup_entry, lookup_entry, lookup_insert k v k' m]
        by_cases h : k' = k₁
        · rw [if_pos h, if_pos h, if_neg (h ▸ Ne.symm hne)]
        · rw [if_neg h, if_neg h]

theorem mem_insert {k : κ} {v : ν} {e : κ × ν} : ∀ {m : List (κ × ν)}, e ∈ insert k v m →
    e = (k, v) ∨ e ∈ m
  | [], h => .inl (by simpa [insert] using h)
  | (k₁, v₁) :: m, h => by
    unfold insert at h
    split at h
    · rcases List.mem_cons.mp h with rfl | h
      · exact .inl rfl
      · exact .inr h
    · split at h
      · rcases List.mem_cons.mp h with rfl | h
        · exact .inl rfl
        · exact .inr (List.mem_cons_of_mem _ h)
      · rcases List.mem_cons.mp h with rfl | h
        · exact .inr List.mem_cons_self
        · exact (mem_insert h).imp_right (List.mem_cons_of_mem _)

/-- An entry with a new key. -/
theorem perm_insert {k : κ} (v : ν) : ∀ {m : List (κ × ν)}, k ∉ m.map Prod.fst →
    (insert k v m).Perm ((k, v) :: m)
  | [], _ => .refl _
  | (k₁, v₁) :: m, h => by
    rw [List.map_cons, List.mem_cons, not_or] at h
    unfold insert
    split
    · exact .refl _
    · rw [if_neg h.1]
      exact ((perm_insert v h.2).cons _).trans (.swap _ _ _)

theorem sorted_insert (k : κ) (v : ν) : ∀ {m : List (κ × ν)}, Sorted m → Sorted (insert k v m)
  | [], _ => by simp [insert, Sorted]
  | (k₁, v₁) :: m, hs => by
    obtain ⟨hlt, hm⟩ := List.pairwise_cons.mp hs
    unfold insert
    split
    · rename_i h
      refine List.pairwise_cons.mpr ⟨fun e he => ?_, hs⟩
      rcases List.mem_cons.mp he with rfl | he
      · exact h
      · exact h.trans (hlt e he)
    · split
      · rename_i h
        exact List.pairwise_cons.mpr ⟨fun e he => h ▸ hlt e he, hm⟩
      · rename_i hnlt hne
        refine List.pairwise_cons.mpr ⟨fun e he => ?_, sorted_insert k v hm⟩
        rcases mem_insert he with rfl | he
        · exact lt_of_le_of_ne (not_lt.mp hnlt) (Ne.symm hne)
        · exact hlt e he

theorem lookup_eq_some_of_mem {m : List (κ × ν)} (hs : Sorted m) {k : κ} {v : ν} (h : (k, v) ∈ m) :
    m.lookup k = some v := by
  induction m with
  | nil => cases h
  | cons e m ih =>
    obtain ⟨hlt, hm⟩ := List.pairwise_cons.mp hs
    rcases List.mem_cons.mp h with rfl | h
    · rw [lookup_entry, if_pos rfl]
    · rw [lookup_entry, if_neg (hlt _ h).ne']
      exact ih hm h

omit [LinearOrder κ] in
theorem mem_of_lookup_eq_some [DecidableEq κ] {m : List (κ × ν)} {k : κ} {v : ν}
    (h : m.lookup k = some v) : (k, v) ∈ m := by
  induction m with
  | nil => cases h
  | cons e m ih =>
    rw [lookup_entry] at h
    by_cases hk : k = e.1
    · rw [if_pos hk] at h
      obtain rfl : e.2 = v := Option.some.inj h
      exact hk ▸ List.mem_cons_self
    · rw [if_neg hk] at h
      exact List.mem_cons_of_mem _ (ih h)

/-- **A map is its lookups.** -/
theorem ext_lookup {m m' : List (κ × ν)} (hs : Sorted m) (hs' : Sorted m')
    (h : ∀ k, m.lookup k = m'.lookup k) : m = m' := by
  have key : ∀ {m m' : List (κ × ν)}, Sorted m → (∀ k, m.lookup k = m'.lookup k) → m ⊆ m' :=
    fun hs h e he => mem_of_lookup_eq_some ((h e.1).symm.trans (lookup_eq_some_of_mem hs he))
  have hnodup : ∀ {m : List (κ × ν)}, Sorted m → m.Nodup := fun hs =>
    List.Pairwise.imp (fun hlt heq => (heq ▸ hlt).false) hs
  have hperm : m.Perm m' := (List.perm_ext_iff_of_nodup (hnodup hs) (hnodup hs')).mpr fun e =>
    ⟨fun he => key hs h he, fun he => key hs' (fun k => (h k).symm) he⟩
  exact hperm.eq_of_pairwise (fun a b _ _ hab hba => absurd hba hab.asymm) hs hs'

/-! ### Many insertions -/

theorem sorted_insertAll (entries : List (κ × ν)) : ∀ {m : List (κ × ν)}, Sorted m →
    Sorted (insertAll entries m) := by
  induction entries with
  | nil => exact fun h => h
  | cons e entries ih => exact fun h => ih (sorted_insert e.1 e.2 h)

theorem lookup_insertAll (k : κ) : ∀ (entries m : List (κ × ν)), (entries.map Prod.fst).Nodup →
    (insertAll entries m).lookup k = (entries.lookup k).or (m.lookup k)
  | [], m, _ => by simp [insertAll]
  | e :: entries, m, hn => by
    rw [List.map_cons, List.nodup_cons] at hn
    show (insertAll entries (insert e.1 e.2 m)).lookup k = _
    rw [lookup_insertAll k entries _ hn.2, lookup_insert e.1 e.2 k m, lookup_entry]
    by_cases h : k = e.1
    · have hnone : entries.lookup k = none := lookup_eq_none fun e' he' heq =>
        hn.1 (List.mem_map.mpr ⟨e', he', heq.trans h⟩)
      rw [if_pos h, if_pos h, hnone, Option.none_or, Option.some_or]
    · rw [if_neg h, if_neg h]

/-- Entries with distinct new keys. -/
theorem perm_insertAll : ∀ {entries m : List (κ × ν)}, ((entries ++ m).map Prod.fst).Nodup →
    (insertAll entries m).Perm (entries ++ m)
  | [], m, _ => .refl _
  | e :: entries, m, hn => by
    have hperm : (entries ++ e :: m).Perm (e :: (entries ++ m)) := List.perm_middle
    have hmap := (hperm.map Prod.fst).nodup_iff.mpr hn
    have hnew : e.1 ∉ m.map Prod.fst := fun hmem => by
      rw [List.cons_append, List.map_cons, List.nodup_cons, List.map_append] at hn
      exact hn.1 (List.mem_append_right _ hmem)
    have hins := perm_insert e.2 hnew
    have hn' : ((entries ++ insert e.1 e.2 m).map Prod.fst).Nodup :=
      ((hins.append_left entries).map Prod.fst).nodup_iff.mpr hmap
    exact (perm_insertAll hn').trans ((hins.append_left entries).trans hperm)

/-- Inserting the entries of a map gives the map. -/
theorem insertAll_nil {m : List (κ × ν)} (hs : Sorted m) : insertAll m [] = m := by
  refine ext_lookup (sorted_insertAll m .nil) hs fun k => ?_
  have hn : (m.map Prod.fst).Nodup := by
    rw [List.nodup_iff_pairwise_ne, List.pairwise_map]
    exact hs.imp ne_of_lt
  rw [lookup_insertAll k m [] hn]
  simp

/-! ### Overwritten entries -/

/-- The entries that no later one overwrites. -/
def keepLast : List (κ × ν) → List (κ × ν)
  | [] => []
  | e :: l => if e.1 ∈ l.map Prod.fst then keepLast l else e :: keepLast l

theorem keepLast_cons (e : κ × ν) (l : List (κ × ν)) :
    keepLast (e :: l) = if e.1 ∈ l.map Prod.fst then keepLast l else e :: keepLast l := rfl

theorem keepLast_sublist : ∀ l : List (κ × ν), (keepLast l).Sublist l
  | [] => .slnil
  | e :: l => by
    rw [keepLast_cons]
    split
    · exact (keepLast_sublist l).cons e
    · exact (keepLast_sublist l).cons_cons e

theorem keys_keepLast (k : κ) : ∀ l : List (κ × ν), k ∈ (keepLast l).map Prod.fst ↔ k ∈ l.map Prod.fst
  | [] => Iff.rfl
  | e :: l => by
    rw [keepLast_cons, List.map_cons, List.mem_cons]
    split
    · rename_i he
      rw [keys_keepLast k l]
      exact (or_iff_right_of_imp fun hk => hk ▸ he).symm
    · rw [List.map_cons, List.mem_cons, keys_keepLast k l]

theorem nodup_keepLast : ∀ l : List (κ × ν), ((keepLast l).map Prod.fst).Nodup
  | [] => .nil
  | e :: l => by
    rw [keepLast_cons]
    split
    · exact nodup_keepLast l
    · rename_i he
      rw [List.map_cons, List.nodup_cons, keys_keepLast]
      exact ⟨he, nodup_keepLast l⟩

theorem mem_insert_iff {m : List (κ × ν)} (hs : Sorted m) {k : κ} {v : ν} {e : κ × ν} :
    e ∈ insert k v m ↔ e = (k, v) ∨ e ∈ m ∧ e.1 ≠ k := by
  have hmem : e ∈ insert k v m ↔ (insert k v m).lookup e.1 = some e.2 :=
    ⟨lookup_eq_some_of_mem (sorted_insert k v hs), mem_of_lookup_eq_some⟩
  have hmem' : e ∈ m ↔ m.lookup e.1 = some e.2 := ⟨lookup_eq_some_of_mem hs, mem_of_lookup_eq_some⟩
  rw [hmem, hmem', lookup_insert, Prod.ext_iff]
  by_cases hk : e.1 = k
  · simp [hk, eq_comm]
  · simp [hk]

theorem keys_insert {m : List (κ × ν)} (hs : Sorted m) {k k' : κ} {v : ν} :
    k' ∈ (insert k v m).map Prod.fst ↔ k' = k ∨ k' ∈ m.map Prod.fst := by
  simp only [List.mem_map, mem_insert_iff hs]
  constructor
  · rintro ⟨e, rfl | ⟨he, -⟩, rfl⟩
    · exact .inl rfl
    · exact .inr ⟨e, he, rfl⟩
  · rintro (rfl | ⟨e, he, rfl⟩)
    · exact ⟨(k', v), .inl rfl, rfl⟩
    · by_cases hk : e.1 = k
      · exact ⟨(k, v), .inl rfl, hk.symm⟩
      · exact ⟨e, .inr ⟨he, hk⟩, rfl⟩

/-- An entry with a key that is there. -/
theorem perm_insert_of_mem {k : κ} {v : ν} (v' : ν) : ∀ {m : List (κ × ν)}, Sorted m → (k, v) ∈ m →
    ∃ rest, m.Perm ((k, v) :: rest) ∧ (insert k v' m).Perm ((k, v') :: rest)
  | [], _, h => absurd h List.not_mem_nil
  | e :: m, hs, h => by
    obtain ⟨hlt, hm⟩ := List.pairwise_cons.mp hs
    unfold insert
    rcases List.mem_cons.mp h with rfl | h
    · rw [if_neg (lt_irrefl k), if_pos rfl]
      exact ⟨m, .refl _, .refl _⟩
    · have hk : e.1 < k := hlt _ h
      obtain ⟨rest, hrest, hinsert⟩ := perm_insert_of_mem v' hm h
      rw [if_neg hk.not_gt, if_neg hk.ne']
      exact ⟨e :: rest, (hrest.cons e).trans (.swap _ _ _), (hinsert.cons e).trans (.swap _ _ _)⟩

/-- What some insertions leave: their last ones, and what they do not touch. -/
theorem mem_insertAll {e : κ × ν} : ∀ {l m : List (κ × ν)}, Sorted m →
    (e ∈ insertAll l m ↔ e ∈ keepLast l ∨ e ∈ m ∧ e.1 ∉ l.map Prod.fst)
  | [], m, _ => by simp [insertAll, keepLast]
  | a :: l, m, hs => by
    show e ∈ insertAll l (insert a.1 a.2 m) ↔ _
    rw [mem_insertAll (sorted_insert a.1 a.2 hs), mem_insert_iff hs, keepLast_cons, List.map_cons,
      List.mem_cons, not_or]
    by_cases ha : a.1 ∈ l.map Prod.fst
    · rw [if_pos ha]
      have hne : e.1 ∉ l.map Prod.fst → e.1 ≠ a.1 := fun h heq => h (heq ▸ ha)
      have heq : e.1 ∉ l.map Prod.fst → e ≠ a := fun h heq => hne h (congrArg Prod.fst heq)
      tauto
    · rw [if_neg ha, List.mem_cons]
      have heq : e = a → e.1 ∉ l.map Prod.fst := fun h => h ▸ ha
      tauto

/-- **Inserting some entries** keeps the last one under each key. -/
theorem perm_insertAll_keepLast (l : List (κ × ν)) : (insertAll l []).Perm (keepLast l) := by
  have hs : Sorted (insertAll l []) := sorted_insertAll l .nil
  refine (List.perm_ext_iff_of_nodup ?_ ?_).mpr fun e => ?_
  · exact List.Pairwise.imp (fun hlt heq => (heq ▸ hlt).false) hs
  · exact .of_map _ (nodup_keepLast l)
  · rw [mem_insertAll .nil]
    simp

/-- Sizes add up to the same without the overwritten entries exactly if these have size 0. -/
theorem sum_keepLast (size : κ × ν → ℕ) : ∀ l : List (κ × ν),
    ((keepLast l).map size).sum = (l.map size).sum ↔ l.Pairwise fun e e' => e.1 = e'.1 → size e = 0
  | [] => ⟨fun _ => .nil, fun _ => rfl⟩
  | e :: l => by
    have hle : ((keepLast l).map size).sum ≤ (l.map size).sum :=
      ((keepLast_sublist l).map size).sum_le_sum fun _ _ => Nat.zero_le _
    have ih := sum_keepLast size l
    rw [keepLast_cons, List.pairwise_cons, List.map_cons, List.sum_cons, ← ih]
    split
    · rename_i he
      obtain ⟨e', he', hkey⟩ := List.mem_map.mp he
      constructor
      · intro h
        exact ⟨fun _ _ _ => by omega, by omega⟩
      · rintro ⟨hzero, h⟩
        rw [hzero e' he' hkey.symm, Nat.zero_add, h]
    · rename_i he
      rw [List.map_cons, List.sum_cons, Nat.add_left_cancel_iff]
      exact (and_iff_right fun e' he' hkey => absurd (List.mem_map.mpr ⟨e', he', hkey.symm⟩) he).symm

/-! ### Counts -/

/-- The map from each member of a list to how often it occurs. -/
structure Tally (l : List κ) (m : List (κ × ℕ)) : Prop where
  sorted : Sorted m
  mem : ∀ k n, (k, n) ∈ m ↔ 0 < n ∧ n = l.count k

namespace Tally

variable {l : List κ} {m m' : List (κ × ℕ)}

theorem nil : Tally ([] : List κ) [] := ⟨.nil, fun k n => by simp; omega⟩

theorem perm {l' : List κ} (h : Tally l m) (hl : l.Perm l') : Tally l' m :=
  ⟨h.sorted, fun k n => by rw [h.mem, hl.count_eq]⟩

theorem mem_of_mem (h : Tally l m) {e : κ × ℕ} (he : e ∈ m) : e.1 ∈ l := by
  have := (h.mem e.1 e.2).mp he
  rw [← List.count_pos_iff]
  omega

theorem lookup (h : Tally l m) (k : κ) : (m.lookup k).getD 0 = l.count k := by
  rcases Nat.eq_zero_or_pos (l.count k) with h0 | hpos
  · have hnone : m.lookup k = none := lookup_eq_none fun e he hk => by
      have := (h.mem e.1 e.2).mp he
      rw [hk] at this
      omega
    rw [hnone, h0, Option.getD_none]
  · rw [lookup_eq_some_of_mem h.sorted ((h.mem k _).mpr ⟨hpos, rfl⟩), Option.getD_some]

/-- The same with another test of equality. -/
theorem lookup_beq [b : BEq κ] [LawfulBEq κ] (h : Tally l m) (k : κ) :
    (@List.lookup κ ℕ b k m).getD 0 = @List.count κ instBEqOfDecidableEq k l := by
  rw [lawful_beq_subsingleton b instBEqOfDecidableEq]
  exact h.lookup k

/-- One more member. -/
theorem insert (h : Tally l m) (k : κ) : Tally (k :: l) (SortedMap.insert k (l.count k + 1) m) := by
  have hs := sorted_insert k (l.count k + 1) h.sorted
  refine ⟨hs, fun k' n => ?_⟩
  have hmem : (k', n) ∈ SortedMap.insert k (l.count k + 1) m ↔
      (SortedMap.insert k (l.count k + 1) m).lookup k' = some n :=
    ⟨lookup_eq_some_of_mem hs, mem_of_lookup_eq_some⟩
  rw [hmem, lookup_insert]
  by_cases hk : k' = k
  · subst hk
    rw [if_pos rfl, List.count_cons_self, Option.some.injEq]
    omega
  · rw [if_neg hk, List.count_cons_of_ne (Ne.symm hk)]
    exact ⟨fun hl => (h.mem k' n).mp (mem_of_lookup_eq_some hl),
      fun hl => lookup_eq_some_of_mem h.sorted ((h.mem k' n).mpr hl)⟩

theorem unique (h : Tally l m) (h' : Tally l m') : m = m' := by
  have hnodup : ∀ {m : List (κ × ℕ)}, Sorted m → m.Nodup := fun hs =>
    List.Pairwise.imp (fun hlt heq => (heq ▸ hlt).false) hs
  have hperm : m.Perm m' := (List.perm_ext_iff_of_nodup (hnodup h.sorted) (hnodup h'.sorted)).mpr fun e => by
    rw [h.mem e.1 e.2, h'.mem e.1 e.2]
  exact hperm.eq_of_pairwise (fun a b _ _ hab hba => absurd hba hab.asymm) h.sorted h'.sorted

/-- The keys are the members. -/
theorem keys_perm (h : Tally l m) : (m.map Prod.fst).Perm l.dedup := by
  have hn : (m.map Prod.fst).Nodup := by
    rw [List.nodup_iff_pairwise_ne, List.pairwise_map]
    exact h.sorted.imp ne_of_lt
  refine (List.perm_ext_iff_of_nodup hn l.nodup_dedup).mpr fun k => ?_
  rw [List.mem_dedup, List.mem_map, ← List.count_pos_iff]
  constructor
  · rintro ⟨e, he, rfl⟩
    exact List.count_pos_iff.mpr (h.mem_of_mem he)
  · intro hpos
    exact ⟨(k, l.count k), (h.mem k _).mpr ⟨hpos, rfl⟩, rfl⟩

/-- **The counts add up** to the length. -/
theorem sum (h : Tally l m) : (m.map Prod.snd).sum = l.length := by
  have hcounts : m.map Prod.snd = (m.map Prod.fst).map fun k => l.count k := by
    rw [List.map_map]
    exact List.map_congr_left fun e he => ((h.mem e.1 e.2).mp he).2
  calc (m.map Prod.snd).sum = ((m.map Prod.fst).map fun k => l.count k).sum := by rw [hcounts]
    _ = (l.dedup.map fun k => l.count k).sum := (h.keys_perm.map _).sum_eq
    _ = l.length := l.sum_map_count_dedup_eq_length

/-- A map of positive counts is the tally of its members, each as often as it says. -/
theorem of_replicate (hs : Sorted m) (hpos : ∀ e ∈ m, 0 < e.2) :
    Tally (m.flatMap fun e => List.replicate e.2 e.1) m := by
  induction m with
  | nil => exact nil
  | cons e m ih =>
    obtain ⟨hlt, hm⟩ := List.pairwise_cons.mp hs
    have ih := ih hm fun e' he => hpos e' (List.mem_cons_of_mem _ he)
    refine ⟨hs, fun k n => ?_⟩
    rw [List.flatMap_cons, List.count_append, List.count_replicate, List.mem_cons]
    by_cases hk : k = e.1
    · have hnew : ∀ n, (k, n) ∉ m := fun n he => (hlt _ he).ne hk.symm
      have h0 : (m.flatMap fun e => List.replicate e.2 e.1).count k = 0 := by
        by_contra hne
        exact hnew _ ((ih.mem k _).mpr ⟨Nat.pos_of_ne_zero hne, rfl⟩)
      have hpos := hpos e List.mem_cons_self
      rw [h0, or_iff_left (hnew n), Prod.ext_iff, hk]
      simp only [true_and, beq_self_eq_true, if_true]
      omega
    · have hb : (e.1 == k) = false := by simpa using Ne.symm hk
      rw [hb, if_neg Bool.false_ne_true, Nat.zero_add, ← ih.mem]
      exact or_iff_right fun he => hk (congrArg Prod.fst he)

end Tally

end SortedMap
