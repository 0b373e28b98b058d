/-
# Work-items on a shared memory

A data-parallel kernel runs one item for each index of a range, in an order
the device chooses. An item is a straight program of loads and stores
(`Access`), which touches the cells of its `trace`. When the items are
confined to pairwise disjoint sets of cells, the order does not matter: a cell
holds what the one item that owns it computes from the memory before the
launch (`parallelFor_apply`), and a cell that no item owns is unchanged
(`parallelFor_of_notMem`).
-/
import Mathlib

namespace WorkItems

variable {ι κ α : Type*}

/-- Runs the items of a kernel on the memory, in the order listed. -/
def parallelFor (order : List ι) (body : ι → (κ → α) → κ → α) (m : κ → α) : κ → α :=
  order.foldl (fun m i => body i m) m

/-- An item that reads and writes only the cells of `foot`. -/
structure Confined (item : (κ → α) → κ → α) (foot : Set κ) : Prop where
  frame : ∀ m, ∀ k ∉ foot, item m k = m k
  congr : ∀ m m', (∀ k ∈ foot, m k = m' k) → ∀ k ∈ foot, item m k = item m' k

/-! ### Programs of loads and stores -/

/-- The memory accesses of an item. -/
inductive Access (κ α : Type*)
  | done
  | load (k : κ) (next : α → Access κ α)
  | store (k : κ) (v : α) (next : Access κ α)

namespace Access

variable [DecidableEq κ]

/-- Runs the program. -/
def exec : Access κ α → (κ → α) → κ → α
  | done, m => m
  | load k next, m => (next (m k)).exec m
  | store k v next, m => next.exec (Function.update m k v)

/-- The cells the program touches when it runs on `m`. -/
def trace : Access κ α → (κ → α) → List κ
  | done, _ => []
  | load k next, m => k :: (next (m k)).trace m
  | store k v next, m => k :: next.trace (Function.update m k v)

variable {foot : Set κ}

theorem exec_of_notMem : ∀ (p : Access κ α) (m : κ → α), (∀ k ∈ p.trace m, k ∈ foot) →
    ∀ k ∉ foot, p.exec m k = m k
  | done, _, _, _, _ => rfl
  | load _ next, m, h, k, hk =>
    exec_of_notMem (next _) m (fun k hk => h k (List.mem_cons_of_mem _ hk)) k hk
  | store l v next, m, h, k, hk => by
    have hl : k ≠ l := fun he => hk (he ▸ h l List.mem_cons_self)
    have ih := exec_of_notMem next (Function.update m l v)
      (fun k hk => h k (List.mem_cons_of_mem _ hk)) k hk
    rw [exec, ih, Function.update_of_ne hl]

theorem exec_congr : ∀ (p : Access κ α) (m m' : κ → α), (∀ k ∈ p.trace m, k ∈ foot) →
    (∀ k ∈ foot, m k = m' k) → ∀ k ∈ foot, p.exec m k = p.exec m' k
  | done, _, _, _, hm, k, hk => hm k hk
  | load l next, m, m', h, hm, k, hk => by
    have hl : m l = m' l := hm l (h l List.mem_cons_self)
    rw [exec, exec, ← hl]
    exact exec_congr (next (m l)) m m' (fun k hk => h k (List.mem_cons_of_mem _ hk)) hm k hk
  | store l v next, m, m', h, hm, k, hk => by
    refine exec_congr next _ _ (fun k hk => h k (List.mem_cons_of_mem _ hk)) (fun j hj => ?_) k hk
    by_cases hjl : j = l
    · rw [hjl, Function.update_self, Function.update_self]
    · rw [Function.update_of_ne hjl, Function.update_of_ne hjl, hm j hj]

/-- The program on the memory that starts at `base`. -/
def atOffset {α : Type*} (base : ℕ) : Access ℕ α → Access ℕ α
  | done => done
  | load k next => load (base + k) fun v => (next v).atOffset base
  | store k v next => store (base + k) v (next.atOffset base)

theorem update_add {α : Type*} (m : ℕ → α) (base k : ℕ) (v : α) :
    (fun j => Function.update m (base + k) v (base + j)) =
      Function.update (fun j => m (base + j)) k v := by
  funext j
  by_cases h : j = k
  · rw [h, Function.update_self, Function.update_self]
  · rw [Function.update_of_ne h, Function.update_of_ne (by omega)]

theorem exec_atOffset {α : Type*} (base : ℕ) : ∀ (p : Access ℕ α) (m : ℕ → α) (j : ℕ),
    (p.atOffset base).exec m (base + j) = p.exec (fun k => m (base + k)) j
  | done, _, _ => rfl
  | load k next, m, j => exec_atOffset base (next (m (base + k))) m j
  | store k v next, m, j => by
    rw [atOffset, exec, exec, exec_atOffset base next, update_add]

theorem trace_atOffset {α : Type*} (base : ℕ) : ∀ (p : Access ℕ α) (m : ℕ → α),
    (p.atOffset base).trace m = (p.trace fun k => m (base + k)).map (base + ·)
  | done, _ => rfl
  | load k next, m => by
    rw [atOffset, trace, trace, trace_atOffset base (next (m (base + k))) m, List.map_cons]
  | store k v next, m => by
    rw [atOffset, trace, trace, trace_atOffset base next, update_add, List.map_cons]

/-- A program is confined to the cells it may touch. -/
theorem confined (p : Access κ α) (h : ∀ m, ∀ k ∈ p.trace m, k ∈ foot) : Confined p.exec foot :=
  ⟨fun m => exec_of_notMem p m (h m), fun m m' => exec_congr p m m' (h m)⟩

end Access

/-! ### Launches -/

variable {body : ι → (κ → α) → κ → α} {foot : ι → Set κ}

theorem parallelFor_of_notMem : ∀ (order : List ι) (m : κ → α) (k : κ),
    (∀ i ∈ order, Confined (body i) (foot i)) → (∀ i ∈ order, k ∉ foot i) →
    parallelFor order body m k = m k
  | [], _, _, _, _ => rfl
  | i :: order, m, k, hc, hk => by
    have h := parallelFor_of_notMem order (body i m) k
      (fun j hj => hc j (List.mem_cons_of_mem _ hj)) (fun j hj => hk j (List.mem_cons_of_mem _ hj))
    exact h.trans ((hc i List.mem_cons_self).frame m k (hk i List.mem_cons_self))

/-- **Disjoint items run as if alone.** -/
theorem parallelFor_apply : ∀ (order : List ι) (m : κ → α) (i : ι) (k : κ), order.Nodup →
    (∀ i ∈ order, Confined (body i) (foot i)) →
    (∀ i ∈ order, ∀ j ∈ order, i ≠ j → Disjoint (foot i) (foot j)) →
    i ∈ order → k ∈ foot i → parallelFor order body m k = body i m k
  | [], _, _, _, _, _, _, hi, _ => by cases hi
  | x :: order, m, i, k, hn, hc, hd, hi, hk => by
    have hc' : ∀ j ∈ order, Confined (body j) (foot j) := fun j hj =>
      hc j (List.mem_cons_of_mem _ hj)
    have hd' : ∀ j ∈ order, ∀ l ∈ order, j ≠ l → Disjoint (foot j) (foot l) := fun j hj l hl =>
      hd j (List.mem_cons_of_mem _ hj) l (List.mem_cons_of_mem _ hl)
    obtain ⟨hx, hn'⟩ := List.nodup_cons.mp hn
    rcases List.mem_cons.mp hi with rfl | hi
    · -- the item runs first: no later one owns its cells
      refine parallelFor_of_notMem order (body i m) k hc' fun j hj hkj => ?_
      have hij : i ≠ j := fun h => hx (h ▸ hj)
      exact Set.disjoint_left.mp
        (hd i List.mem_cons_self j (List.mem_cons_of_mem _ hj) hij) hk hkj
    · -- the item runs later: the first one leaves its cells as they were
      have hxi : x ≠ i := fun h => hx (h ▸ hi)
      have hdx := hd x List.mem_cons_self i (List.mem_cons_of_mem _ hi) hxi
      have hsame : ∀ l ∈ foot i, body x m l = m l := fun l hl =>
        (hc x List.mem_cons_self).frame m l (Set.disjoint_right.mp hdx hl)
      have h := parallelFor_apply order (body x m) i k hn' hc' hd' hi hk
      exact h.trans ((hc' i hi).congr _ _ hsame k hk)

section Launch

variable {body : ℕ → (κ → α) → κ → α} {foot : ℕ → Set κ} {n : ℕ} {order : List ℕ}

/-- A launch of `n` items, in any order: what the owner of a cell computes. -/
theorem launch_apply (hp : order.Perm (List.range n))
    (hc : ∀ i < n, Confined (body i) (foot i))
    (hd : ∀ i < n, ∀ j < n, i ≠ j → Disjoint (foot i) (foot j))
    (m : κ → α) {i : ℕ} {k : κ} (hi : i < n) (hk : k ∈ foot i) :
    parallelFor order body m k = body i m k := by
  have hmem : ∀ j, j ∈ order ↔ j < n := fun j => by rw [hp.mem_iff, List.mem_range]
  exact parallelFor_apply order m i k (hp.nodup_iff.mpr List.nodup_range)
    (fun j hj => hc j ((hmem j).mp hj))
    (fun j hj l hl => hd j ((hmem j).mp hj) l ((hmem l).mp hl)) ((hmem i).mpr hi) hk

/-- A launch leaves the cells that no item owns. -/
theorem launch_of_notMem (hp : order.Perm (List.range n))
    (hc : ∀ i < n, Confined (body i) (foot i)) (m : κ → α) {k : κ} (hk : ∀ i < n, k ∉ foot i) :
    parallelFor order body m k = m k := by
  have hmem : ∀ j ∈ order, j < n := fun j hj => List.mem_range.mp (hp.mem_iff.mp hj)
  exact parallelFor_of_notMem order m k (fun j hj => hc j (hmem j hj)) fun j hj => hk j (hmem j hj)

end Launch

/-! ### What a kernel does -/

/-- A launch of `items` work-items on `dim` cells: whatever the memory holds,
item `i` touches the cells `touches i` only, all of them below `dim` and no
two items a common one, and in every order the cells below `dim` end as
`result` of what they were. -/
structure KernelMeets (items dim : ℕ) (item : ℕ → Access ℕ α)
    (touches : ℕ → Set ℕ) (result : (ℕ → α) → ℕ → α) : Prop where
  touched : ∀ i < items, ∀ m, ∀ k ∈ (item i).trace m, k ∈ touches i
  inBounds : ∀ i < items, ∀ k ∈ touches i, k < dim
  disjoint : ∀ i < items, ∀ j < items, i ≠ j → Disjoint (touches i) (touches j)
  anyOrder : ∀ order : List ℕ, order.Perm (List.range items) → ∀ m : ℕ → α,
    ∀ j < dim, parallelFor order (fun i => (item i).exec) m j = result m j

namespace KernelMeets

variable {items dim : ℕ} {item : ℕ → Access ℕ α} {touches : ℕ → Set ℕ}
  {result : (ℕ → α) → ℕ → α}

theorem confined (h : KernelMeets items dim item touches result) :
    ∀ i < items, Confined (item i).exec (touches i) := fun i hi => (item i).confined (h.touched i hi)

/-- The item that owns a cell leaves the result in it. -/
theorem exec_eq (h : KernelMeets items dim item touches result) (m : ℕ → α) {i j : ℕ}
    (hi : i < items) (hj : j ∈ touches i) : (item i).exec m j = result m j := by
  have h1 := h.anyOrder _ (.refl _) m j (h.inBounds i hi j hj)
  rwa [launch_apply (.refl _) h.confined h.disjoint m hi hj] at h1

/-- A cell that no item owns holds the result already. -/
theorem eq_of_notMem (h : KernelMeets items dim item touches result) (m : ℕ → α) {j : ℕ}
    (hj : j < dim) (hno : ∀ i < items, j ∉ touches i) : m j = result m j := by
  have h1 := h.anyOrder _ (.refl _) m j hj
  rwa [launch_of_notMem (.refl _) h.confined m hno] at h1

end KernelMeets

/-- A cell of a row tells the row. -/
theorem row_cell_inj {dim r r' k k' : ℕ} (hk : k < dim) (hk' : k' < dim)
    (h : r * dim + k = r' * dim + k') : r = r' ∧ k = k' := by
  have h1 := congrArg (· / dim) h
  have h2 := congrArg (· % dim) h
  have hpos : 0 < dim := by omega
  simp only [Nat.mul_comm _ dim, Nat.mul_add_div hpos, Nat.div_eq_of_lt hk, Nat.div_eq_of_lt hk',
    Nat.mul_add_mod, Nat.mod_eq_of_lt hk, Nat.mod_eq_of_lt hk', Nat.add_zero] at h1 h2
  exact ⟨h1, h2⟩

section Rows

variable {rows items dim : ℕ} {item : ℕ → ℕ → Access ℕ α} {touches : ℕ → ℕ → Set ℕ}
  {result : ℕ → (ℕ → α) → ℕ → α}

/-- The cells of item `id` of a launch for rows of `dim` cells, each with `items` items. -/
def rowCells (items dim : ℕ) (touches : ℕ → ℕ → Set ℕ) (id : ℕ) : Set ℕ :=
  (id / items * dim + ·) '' touches (id / items) (id % items)

theorem row_and_item_lt {id : ℕ} (hid : id < rows * items) : id / items < rows ∧ id % items < items := by
  have hpos : 0 < items := Nat.pos_of_ne_zero fun h0 => by simp [h0] at hid
  exact ⟨Nat.div_lt_of_lt_mul (by rwa [Nat.mul_comm]), Nat.mod_lt _ hpos⟩

theorem confined_rows (h : ∀ b < rows, KernelMeets items dim (item b) (touches b) (result b)) {id : ℕ}
    (hid : id < rows * items) :
    Confined ((item (id / items) (id % items)).atOffset (id / items * dim)).exec
      (rowCells items dim touches id) := by
  obtain ⟨hr, hi⟩ := row_and_item_lt hid
  refine Access.confined _ fun m k hk => ?_
  rw [Access.trace_atOffset] at hk
  obtain ⟨k', hk', rfl⟩ := List.mem_map.mp hk
  exact ⟨k', (h _ hr).touched _ hi _ k' hk', rfl⟩

/-- Items of different rows touch different rows, those of one row different cells of it. -/
theorem disjoint_rows (h : ∀ b < rows, KernelMeets items dim (item b) (touches b) (result b)) {id id' : ℕ}
    (hid : id < rows * items) (hid' : id' < rows * items) (hne : id ≠ id') :
    Disjoint (rowCells items dim touches id) (rowCells items dim touches id') := by
  obtain ⟨hr, hi⟩ := row_and_item_lt hid
  obtain ⟨hr', hi'⟩ := row_and_item_lt hid'
  refine Set.disjoint_left.mpr ?_
  rintro _ ⟨k, hk, rfl⟩ ⟨k', hk', he⟩
  obtain ⟨hrow, rfl⟩ := row_cell_inj ((h _ hr').inBounds _ hi' k' hk') ((h _ hr).inBounds _ hi k hk) he
  rw [hrow] at hk'
  have hmod : id % items ≠ id' % items := fun hm => hne (by
    rw [← Nat.div_add_mod id items, ← Nat.div_add_mod id' items, hm, hrow])
  exact Set.disjoint_left.mp ((h _ hr).disjoint _ hi _ hi' hmod) hk hk'

/-- **One launch for many rows.** A kernel on each of `rows` rows of `dim`
cells, launched as one range of items, does to every row what it does alone. -/
theorem launch_rows (h : ∀ b < rows, KernelMeets items dim (item b) (touches b) (result b))
    {order : List ℕ} (hp : order.Perm (List.range (rows * items))) (m : ℕ → α)
    {b j : ℕ} (hb : b < rows) (hj : j < dim) :
    parallelFor order (fun id => ((item (id / items) (id % items)).atOffset (id / items * dim)).exec) m
        (b * dim + j) = result b (fun k => m (b * dim + k)) j := by
  have hconf : ∀ id < rows * items, Confined _ (rowCells items dim touches id) := fun id => confined_rows h
  have hdisj : ∀ id < rows * items, ∀ id' < rows * items, id ≠ id' →
      Disjoint (rowCells items dim touches id) (rowCells items dim touches id') :=
    fun id hid id' hid' => disjoint_rows h hid hid'
  by_cases hown : ∃ i < items, j ∈ touches b i
  · obtain ⟨i, hi, hji⟩ := hown
    have hdiv : (b * items + i) / items = b := by
      rw [Nat.mul_comm, Nat.mul_add_div (by omega), Nat.div_eq_of_lt hi, Nat.add_zero]
    have hmod : (b * items + i) % items = i := by
      rw [Nat.mul_comm, Nat.mul_add_mod, Nat.mod_eq_of_lt hi]
    have hid : b * items + i < rows * items :=
      calc b * items + i < b * items + items := by omega
        _ = (b + 1) * items := (Nat.succ_mul b items).symm
        _ ≤ rows * items := Nat.mul_le_mul_right _ hb
    have hk : b * dim + j ∈ rowCells items dim touches (b * items + i) := ⟨j, by rwa [hdiv, hmod], by simp only [hdiv]⟩
    rw [launch_apply hp hconf hdisj m hid hk, hdiv, hmod, Access.exec_atOffset, (h b hb).exec_eq _ hi hji]
  · push Not at hown
    have hno : ∀ id < rows * items, b * dim + j ∉ rowCells items dim touches id := by
      rintro id hid ⟨k, hk, he⟩
      obtain ⟨hr, hi⟩ := row_and_item_lt hid
      obtain ⟨hrow, rfl⟩ := row_cell_inj ((h _ hr).inBounds _ hi k hk) hj he
      rw [hrow] at hk
      exact hown _ hi hk
    rw [launch_of_notMem hp hconf m hno]
    exact (h b hb).eq_of_notMem (fun k => m (b * dim + k)) hj hown

end Rows

/-- The order in which a device runs the items of a launch of each size. -/
structure Schedule where
  order : ℕ → List ℕ
  perm : ∀ n, (order n).Perm (List.range n)

/-- The items in the order of their indices. -/
def Schedule.inOrder : Schedule := ⟨List.range, fun _ => .refl _⟩

/-- The orders of the launches still to come. -/
abbrev Queue := ℕ → Schedule

namespace Queue

/-- The queue after one launch. -/
def next (q : Queue) : Queue := fun k => q (k + 1)

/-- Launches `range` items on the memory. -/
def launch [DecidableEq κ] (q : Queue) (range : ℕ) (item : ℕ → Access κ α) (m : κ → α) : κ → α :=
  parallelFor ((q 0).order range) (fun i => (item i).exec) m

/-- A launch does what its kernel does. -/
theorem launch_eq {items dim : ℕ} {item : ℕ → Access ℕ α} {touches : ℕ → Set ℕ}
    {result : (ℕ → α) → ℕ → α} (h : KernelMeets items dim item touches result) (q : Queue)
    (m : ℕ → α) : ∀ j < dim, q.launch items item m j = result m j :=
  h.anyOrder _ ((q 0).perm items) m

/-- Items that each work on their own index of several arrays. -/
theorem launch_column {β : Type*} [DecidableEq β] {P : ℕ} {item : ℕ → Access (β × ℕ) α}
    (h : ∀ i m, ∀ k ∈ (item i).trace m, k.2 = i) (q : Queue) (m : β × ℕ → α) {i : ℕ} (hi : i < P)
    (b : β) : q.launch P item m (b, i) = (item i).exec m (b, i) := by
  have hc : ∀ i < P, Confined (item i).exec {k : β × ℕ | k.2 = i} := fun i _ => (item i).confined (h i)
  have hd : ∀ i < P, ∀ j < P, i ≠ j → Disjoint {k : β × ℕ | k.2 = i} {k : β × ℕ | k.2 = j} :=
    fun i _ j _ hij => Set.disjoint_left.mpr fun k hki hkj => hij (hki.symm.trans hkj)
  exact launch_apply ((q 0).perm P) hc hd m hi rfl

section Store

variable [DecidableEq κ] {N : ℕ} {f : ℕ → κ} (v : ℕ → α)

/-- Items that each store one value, in different cells. -/
theorem launch_store (hf : ∀ i < N, ∀ j < N, f i = f j → i = j) (q : Queue) (m : κ → α) {i : ℕ}
    (hi : i < N) : q.launch N (fun i => .store (f i) (v i) .done) m (f i) = v i := by
  have hc : ∀ i < N, Confined (Access.store (f i) (v i) .done).exec {f i} := fun i _ =>
    Access.confined _ fun m k hk => by simpa [Access.trace] using hk
  have hd : ∀ i < N, ∀ j < N, i ≠ j → Disjoint ({f i} : Set κ) {f j} := fun i hi j hj hij => by
    simpa using fun he => hij (hf i hi j hj he)
  rw [launch, launch_apply ((q 0).perm N) hc hd m hi (Set.mem_singleton (f i))]
  simp [Access.exec]

theorem launch_store_of_ne (q : Queue) (m : κ → α) {k : κ} (hk : ∀ i < N, f i ≠ k) :
    q.launch N (fun i => .store (f i) (v i) .done) m k = m k := by
  have hc : ∀ i < N, Confined (Access.store (f i) (v i) .done).exec {f i} := fun i _ =>
    Access.confined _ fun m k hk => by simpa [Access.trace] using hk
  exact launch_of_notMem ((q 0).perm N) hc m fun i hi h => hk i hi (Set.mem_singleton_iff.mp h).symm

end Store

end Queue

end WorkItems
