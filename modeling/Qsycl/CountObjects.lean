/-
# The counts that QMIO locates

`counts_from_json` takes one counts object of the reply, or those of all
registers of one entry (`located`). It stores the counts of an object under the
keys without whitespace, where a later key overwrites an equal one, and adds up
those of several registers (`countsFromJson_eq`). So no count is lost but by
overwriting (`Source.perm_spread`).
-/
import Qsycl.CountKeys

namespace Qsycl

open SortedMap

namespace Qmio

/-! ### Locating the counts -/

/-- The entries of a counts object, as they stand in the reply. -/
def rawCounts : Json → Option Entries
  | .object entries =>
    if entries.isEmpty then none else if ∀ e ∈ entries, isCount e.2 = true then some entries else none
  | _ => none

/-- The entries of the counts object of each register. -/
def rawRegisters : Json → Option (List Entries)
  | .object entries => if entries.isEmpty then none else entries.mapM fun e => rawCounts e.2
  | _ => none

/-- The part of a reply that the counts are taken from. -/
inductive Source
  | object (entries : Entries)
  | registers (objects : List Entries)

/-- Its counts objects. -/
def Source.objects : Source → List Entries
  | object entries => [entries]
  | registers objects => objects

/-- The first of some keys with a part of the wanted form. -/
def firstUnder {α : Type} (entries : Entries) (part : Json → Option α) (keys : List String) : Option α :=
  keys.findSome? fun key => (entries.lookup (ascii key)).bind part

/-- The part that `counts_from_json` finds. -/
def located (value : Json) : Option Source :=
  ((rawCounts value).map .object).or <| match value with
    | .object entries =>
      let known := ["counts", "result", "results", "data", "c", "register", "measurements"]
      ((firstUnder entries rawCounts known).map .object).or <|
        ((firstUnder entries rawRegisters ["results", "result", "data"]).map .registers).or <|
          (entries.findSome? fun e => rawCounts e.2).map .object
    | _ => none

/-! ### Storing them -/

/-- What one object is stored as. -/
def stored (entries : Entries) : Entries := insertAll (stripped entries) []

/-- The count so far, when it can be read. -/
def soFar (bitstring : Bytes) (merged : Entries) : ℕ := ((merged.lookup bitstring).map countOf).getD 0

/-- The counts of one more register. -/
def added (counts merged : Entries) : Entries :=
  counts.foldl (fun merged e =>
    SortedMap.insert e.1 (.unsigned ((soFar e.1 merged + countOf e.2) % 2 ^ 64)) merged) merged

/-- What several registers are stored as. -/
def mergedFrom (objects : List Entries) (merged : Entries) : Entries :=
  objects.foldl (fun merged entries => added (stored entries) merged) merged

def Source.counts : Source → Entries
  | object entries => stored entries
  | registers objects => mergedFrom objects []

/-- Every value is a number that can be read. -/
def Sized (entries : Entries) : Prop := ∀ e ∈ entries, e.2.getSize = .ok (countOf e.2)

theorem asCountsObject_eq (v : Json) : asCountsObject v = (rawCounts v).map stored := by
  cases v with
  | object entries =>
    unfold asCountsObject rawCounts
    dsimp only
    by_cases hempty : entries.isEmpty = true
    · rw [if_pos hempty, if_pos hempty]
      rfl
    · rw [if_neg hempty, if_neg hempty, countsEntries_insertAll]
      by_cases hall : ∀ e ∈ entries, isCount e.2 = true
      · rw [if_pos hall, if_pos hall]
        rfl
      · rw [if_neg hall, if_neg hall]
        rfl
  | _ => rfl

theorem getSize_isCount {v : Json} (h : isCount v = true) : v.getSize = .ok (countOf v) := by
  cases v with
  | integer i => rfl
  | unsigned n => rfl
  | _ => cases h

theorem isCount_of_rawCounts {v : Json} {entries : Entries} (h : rawCounts v = some entries) :
    ∀ e ∈ entries, isCount e.2 = true := by
  unfold rawCounts at h
  split at h
  · split at h
    · cases h
    · split at h
      · rename_i hall
        cases h
        exact hall
      · cases h
  · cases h

theorem sized_insert {m : Entries} (h : Sized m) {k : Bytes} {v : Json} (hv : v.getSize = .ok (countOf v)) :
    Sized (SortedMap.insert k v m) := by
  intro e he
  rcases mem_insert he with rfl | he
  · exact hv
  · exact h e he

theorem sized_stored {entries : Entries} (h : ∀ e ∈ entries, isCount e.2 = true) : Sized (stored entries) := by
  intro e he
  have hmem := (keepLast_sublist _).subset ((perm_insertAll_keepLast _).mem_iff.mp he)
  obtain ⟨e', he', rfl⟩ := List.mem_map.mp hmem
  exact getSize_isCount (h e' he')

theorem previous_eq {merged : Entries} (h : Sized merged) (bitstring : Bytes) :
    previous bitstring merged = .ok (soFar bitstring merged) := by
  unfold previous soFar
  rcases hv : merged.lookup bitstring with _ | v
  · rfl
  · exact h _ (mem_of_lookup hv)

theorem addCounts_eq : ∀ {counts merged : Entries}, Sized counts → Sized merged →
    addCounts counts merged = .ok (added counts merged) ∧ Sized (added counts merged)
  | [], merged, _, hm => ⟨rfl, hm⟩
  | e :: counts, merged, hc, hm => by
    obtain ⟨he, hcs⟩ := List.forall_mem_cons.mp hc
    obtain ⟨hrun, hsized⟩ := addCounts_eq hcs (sized_insert hm (k := e.1)
      (v := .unsigned ((soFar e.1 merged + countOf e.2) % 2 ^ 64)) rfl)
    refine ⟨?_, hsized⟩
    unfold addCounts
    rw [previous_eq hm, ok_bind, he, ok_bind, hrun]
    rfl

theorem mergeRegisters_eq : ∀ {registers : Entries} {merged : Entries}, Sized merged →
    mergeRegisters registers merged =
      .ok ((registers.mapM fun e => rawCounts e.2).map fun objects => mergedFrom objects merged)
  | [], merged, _ => rfl
  | (name, val) :: registers, merged, hm => by
    unfold mergeRegisters
    rw [asCountsObject_eq, List.mapM_cons]
    rcases hv : rawCounts val with _ | entries
    · rfl
    · obtain ⟨hrun, hsized⟩ := addCounts_eq (sized_stored (isCount_of_rawCounts hv)) hm
      rw [Option.map_some]
      dsimp only
      rw [hrun, ok_bind, mergeRegisters_eq hsized]
      generalize (registers.mapM fun e => rawCounts e.2 : Option (List Entries)) = objects
      cases objects <;> rfl

theorem asRegisterCounts_eq (v : Json) :
    asRegisterCounts v = .ok ((rawRegisters v).map fun objects => mergedFrom objects []) := by
  cases v with
  | object entries =>
    unfold asRegisterCounts rawRegisters
    dsimp only
    by_cases hempty : entries.isEmpty = true
    · rw [if_pos hempty, if_pos hempty]
      rfl
    · rw [if_neg hempty, if_neg hempty]
      exact mergeRegisters_eq nofun
  | _ => rfl

theorem findRegisters_eq (entries : Entries) : ∀ keys : List String, findRegisters entries keys =
    .ok ((firstUnder entries rawRegisters keys).map fun objects => mergedFrom objects [])
  | [] => rfl
  | key :: keys => by
    unfold findRegisters firstUnder
    rw [List.findSome?_cons]
    rcases entries.lookup (ascii key) with _ | v
    · exact findRegisters_eq entries keys
    · dsimp only
      rw [asRegisterCounts_eq, ok_bind, Option.bind_some]
      rcases rawRegisters v with _ | objects
      · exact findRegisters_eq entries keys
      · rfl

/-- **What `counts_from_json` returns** is the located counts. -/
theorem countsFromJson_eq (value : Json) : countsFromJson value = match located value with
    | some source => .ok source.counts
    | none => .error notLocated := by
  have hfirst : ∀ (entries : Entries) (keys : List String),
      (keys.findSome? fun key => (entries.lookup (ascii key)).bind asCountsObject) =
        (firstUnder entries rawCounts keys).map stored := by
    intro entries keys
    unfold firstUnder
    rw [List.map_findSome?]
    refine congrArg (List.findSome? · keys) (funext fun key => ?_)
    show _ = ((entries.lookup (ascii key)).bind rawCounts).map stored
    rcases entries.lookup (ascii key) with _ | v
    · rfl
    · exact asCountsObject_eq v
  unfold countsFromJson located
  rw [asCountsObject_eq]
  rcases rawCounts value with _ | direct
  · cases value with
    | object entries =>
      have hlast : (entries.findSome? fun e => asCountsObject e.2) =
          (entries.findSome? fun e => rawCounts e.2).map stored := by
        rw [List.map_findSome?]
        exact congrArg (List.findSome? · entries) (funext fun e => asCountsObject_eq e.2)
      simp only [countsOfEntries, hfirst, findRegisters_eq, hlast, Option.map_none, Option.none_or, ok_bind]
      generalize firstUnder entries rawCounts
        ["counts", "result", "results", "data", "c", "register", "measurements"] = known
      generalize firstUnder entries rawRegisters ["results", "result", "data"] = registers
      generalize (entries.findSome? fun e => rawCounts e.2) = last
      cases known with
      | some counts => rfl
      | none =>
        cases registers with
        | some objects => rfl
        | none => cases last <;> rfl
    | _ => rfl
  · rfl

/-! ### Keys -/

/-- All values of its objects are counts. -/
def Source.Counted (source : Source) : Prop :=
  ∀ entries ∈ source.objects, ∀ e ∈ entries, isCount e.2 = true

theorem counted_object {entries : Entries} (h : ∀ e ∈ entries, isCount e.2 = true) :
    (Source.object entries).Counted := by
  intro es hes
  rw [List.mem_singleton.mp hes]
  exact h

theorem mem_mapM_some {α β : Type} {f : α → Option β} : ∀ {l : List α} {bs : List β}, l.mapM f = some bs →
    ∀ b ∈ bs, ∃ a ∈ l, f a = some b
  | [], bs, h, b, hb => by
    cases h
    exact absurd hb List.not_mem_nil
  | a :: l, bs, h, b, hb => by
    rw [List.mapM_cons, Option.bind_eq_bind, Option.bind_eq_some_iff] at h
    obtain ⟨b₀, h₀, h⟩ := h
    obtain ⟨bs₀, hbs, h⟩ := Option.bind_eq_some_iff.mp h
    cases h
    rcases List.mem_cons.mp hb with rfl | hb
    · exact ⟨a, List.mem_cons_self, h₀⟩
    · obtain ⟨a', ha', h'⟩ := mem_mapM_some hbs b hb
      exact ⟨a', List.mem_cons_of_mem _ ha', h'⟩

theorem counted_rawRegisters {v : Json} {objects : List Entries} (h : rawRegisters v = some objects) :
    (Source.registers objects).Counted := by
  unfold rawRegisters at h
  split at h
  · split at h
    · cases h
    · intro es hes
      obtain ⟨e, -, he⟩ := mem_mapM_some h es hes
      exact isCount_of_rawCounts he
  · cases h

theorem located_counted {value : Json} {source : Source} (h : located value = some source) :
    source.Counted := by
  have hobject : ∀ {o : Option Entries}, (∀ es, o = some es → ∃ v, rawCounts v = some es) →
      o.map .object = some source → source.Counted := by
    intro o ho h
    obtain ⟨es, hes, rfl⟩ := Option.map_eq_some_iff.mp h
    obtain ⟨v, hv⟩ := ho es hes
    exact counted_object (isCount_of_rawCounts hv)
  have hunder : ∀ {α : Type} {part : Json → Option α} {entries : Entries} {keys : List String} {a : α},
      firstUnder entries part keys = some a → ∃ v, part v = some a := by
    intro α part entries keys a h
    obtain ⟨key, -, hkey⟩ := List.exists_of_findSome?_eq_some h
    obtain ⟨v, -, hv⟩ := Option.bind_eq_some_iff.mp hkey
    exact ⟨v, hv⟩
  unfold located at h
  rcases Option.or_eq_some_iff.mp h with h | ⟨-, h⟩
  · exact hobject (fun es hes => ⟨value, hes⟩) h
  · cases value with
    | object entries =>
      rcases Option.or_eq_some_iff.mp h with h | ⟨-, h⟩
      · exact hobject (fun es hes => hunder hes) h
      rcases Option.or_eq_some_iff.mp h with h | ⟨-, h⟩
      · obtain ⟨objects, hobjects, rfl⟩ := Option.map_eq_some_iff.mp h
        obtain ⟨v, hv⟩ := hunder hobjects
        exact counted_rawRegisters hv
      · refine hobject (fun es hes => ?_) h
        obtain ⟨e, -, he⟩ := List.exists_of_findSome?_eq_some hes
        exact ⟨e.2, he⟩
    | _ => cases h

theorem normalize_idem (key : Bytes) : normalizeBitstring (normalizeBitstring key) = normalizeBitstring key := by
  unfold normalizeBitstring
  rw [List.filter_filter]
  simp

theorem keys_stored {entries : Entries} {k : Bytes} :
    k ∈ (stored entries).map Prod.fst ↔ k ∈ entries.map fun e => normalizeBitstring e.1 := by
  show k ∈ (insertAll (stripped entries) []).map Prod.fst ↔ _
  rw [((perm_insertAll_keepLast (stripped entries)).map Prod.fst).mem_iff, keys_keepLast]
  unfold stripped
  rw [List.map_map]
  rfl

theorem sorted_added : ∀ {counts merged : Entries}, Sorted merged → Sorted (added counts merged)
  | [], _, hs => hs
  | e :: counts, _, hs => @sorted_added counts _ (sorted_insert e.1 _ hs)

theorem keys_added {k : Bytes} : ∀ {counts merged : Entries}, Sorted merged →
    (k ∈ (added counts merged).map Prod.fst ↔ k ∈ counts.map Prod.fst ∨ k ∈ merged.map Prod.fst)
  | [], merged, _ => by simp [added]
  | e :: counts, merged, hs => by
    have ih := @keys_added k counts _ (sorted_insert e.1
      (.unsigned ((soFar e.1 merged + countOf e.2) % 2 ^ 64)) hs)
    rw [keys_insert hs] at ih
    rw [List.map_cons, List.mem_cons, or_assoc, or_left_comm]
    exact ih

theorem mergedFrom_cons (entries : Entries) (objects : List Entries) (merged : Entries) :
    mergedFrom (entries :: objects) merged = mergedFrom objects (added (stored entries) merged) := rfl

theorem keys_mergedFrom {k : Bytes} : ∀ {objects : List Entries} {merged : Entries}, Sorted merged →
    (k ∈ (mergedFrom objects merged).map Prod.fst ↔
      k ∈ (objects.flatten.map fun e => normalizeBitstring e.1) ∨ k ∈ merged.map Prod.fst)
  | [], merged, _ => by simp [mergedFrom]
  | entries :: objects, merged, hs => by
    rw [mergedFrom_cons, keys_mergedFrom (sorted_added hs), keys_added hs, keys_stored, List.flatten_cons,
      List.map_append, List.mem_append, or_assoc, or_left_comm]

/-- **The keys of the stored counts** are those of the reply, without whitespace. -/
theorem Source.keys_counts {source : Source} {k : Bytes} : k ∈ source.counts.map Prod.fst ↔
    k ∈ source.objects.flatten.map fun e => normalizeBitstring e.1 := by
  cases source with
  | object entries =>
    show k ∈ (stored entries).map Prod.fst ↔ k ∈ [entries].flatten.map _
    rw [keys_stored, List.flatten_singleton]
  | registers objects =>
    show k ∈ (mergedFrom objects []).map Prod.fst ↔ k ∈ objects.flatten.map _
    rw [keys_mergedFrom .nil]
    simp

theorem sized_mergedFrom : ∀ {objects : List Entries} {merged : Entries},
    (∀ entries ∈ objects, ∀ e ∈ entries, isCount e.2 = true) → Sized merged → Sized (mergedFrom objects merged)
  | [], _, _, hm => hm
  | entries :: objects, merged, h, hm => by
    obtain ⟨hentries, hobjects⟩ := List.forall_mem_cons.mp h
    exact @sized_mergedFrom objects _ hobjects (addCounts_eq (sized_stored hentries) hm).2

theorem Source.sized_counts {source : Source} (h : source.Counted) : Sized source.counts := by
  cases source with
  | object entries => exact sized_stored (h entries (List.mem_singleton_self entries))
  | registers objects => exact sized_mergedFrom h nofun

/-! ### Counts -/

theorem length_spread (entries : Entries) :
    (spread entries).length = (entries.map fun e => countOf e.2).sum := by
  simp [spread, List.length_flatMap]

theorem spread_stripped (entries : Entries) : spread (stripped entries) = spread entries := by
  unfold spread stripped
  rw [List.flatMap_map]
  simp only [normalize_idem]

/-- The counts of an object that are not overwritten. -/
def kept (entries : Entries) : List ℕ := spread (keepLast (stripped entries))

theorem kept_sublist (entries : Entries) : (kept entries).Sublist (spread entries) := by
  rw [← spread_stripped entries]
  exact (keepLast_sublist _).flatMap _

theorem perm_stored (entries : Entries) : (spread (stored entries)).Perm (kept entries) :=
  (perm_insertAll_keepLast (stripped entries)).flatMap_right _

/-- The counts of an object are all kept: an entry that a later one overwrites has count 0. -/
def Lossless (entries : Entries) : Prop :=
  entries.Pairwise fun e e' => normalizeBitstring e.1 = normalizeBitstring e'.1 → countOf e.2 = 0

theorem length_kept_iff (entries : Entries) :
    (kept entries).length = (spread entries).length ↔ Lossless entries := by
  unfold kept
  rw [← spread_stripped entries, length_spread, length_spread, sum_keepLast]
  exact List.pairwise_map

/-- One more count of a register. -/
theorem perm_added_one {merged : Entries} (hs : Sorted merged) (e : Bytes × Json)
    (hlt : countOf e.2 + (spread merged).length < 2 ^ 64) :
    (spread (SortedMap.insert e.1 (.unsigned ((soFar e.1 merged + countOf e.2) % 2 ^ 64)) merged)).Perm
      (List.replicate (countOf e.2) (valueOf 2 (normalizeBitstring e.1)) ++ spread merged) := by
  have hcons : ∀ (v : Json) (rest : Entries), spread ((e.1, v) :: rest) =
      List.replicate (countOf v) (valueOf 2 (normalizeBitstring e.1)) ++ spread rest := fun _ _ => rfl
  unfold soFar
  rcases hv : merged.lookup e.1 with _ | v
  · have hnew : e.1 ∉ merged.map Prod.fst := by
      rw [List.lookup_eq_none_iff] at hv
      intro hmem
      obtain ⟨e', he', hkey⟩ := List.mem_map.mp hmem
      exact absurd (hv e' he') (by simp [hkey])
    have hn : (0 + countOf e.2) % 2 ^ 64 = countOf e.2 := by omega
    refine ((perm_insert _ hnew).flatMap_right _).trans ?_
    rw [Option.map_none, Option.getD_none, hn]
    exact .refl _
  · obtain ⟨rest, hrest, hinsert⟩ := perm_insert_of_mem
      (.unsigned ((((some v).map countOf).getD 0 + countOf e.2) % 2 ^ 64)) hs (mem_of_lookup hv)
    have hmerged : (spread merged).Perm (spread ((e.1, v) :: rest)) := hrest.flatMap_right _
    have hlength := hmerged.length_eq
    rw [hcons, List.length_append, List.length_replicate] at hlength
    have hn : (countOf v + countOf e.2) % 2 ^ 64 = countOf e.2 + countOf v := by omega
    refine (hinsert.flatMap_right _).trans (.trans ?_ (hmerged.symm.append_left _))
    rw [Option.map_some, Option.getD_some, hn]
    show (spread ((e.1, Json.unsigned (countOf e.2 + countOf v)) :: rest)).Perm _
    rw [hcons, hcons, ← List.append_assoc, ← List.replicate_add]
    exact .refl _

/-- The counts of one more register. -/
theorem perm_added : ∀ {counts merged : Entries}, Sorted merged →
    (spread counts).length + (spread merged).length < 2 ^ 64 →
    (spread (added counts merged)).Perm (spread counts ++ spread merged)
  | [], _, _, _ => .refl _
  | e :: counts, merged, hs, hlt => by
    have hcons : spread (e :: counts) =
        List.replicate (countOf e.2) (valueOf 2 (normalizeBitstring e.1)) ++ spread counts := rfl
    rw [hcons, List.length_append, List.length_replicate] at hlt
    have hone := perm_added_one hs e (by omega)
    have hlength := hone.length_eq
    rw [List.length_append, List.length_replicate] at hlength
    have ih := @perm_added counts _ (sorted_insert e.1
      (.unsigned ((soFar e.1 merged + countOf e.2) % 2 ^ 64)) hs) (by omega)
    refine ih.trans ((hone.append_left _).trans ?_)
    rw [hcons, List.append_assoc]
    exact List.perm_append_comm_assoc _ _ _

theorem perm_mergedFrom : ∀ {objects : List Entries} {merged : Entries}, Sorted merged →
    (objects.flatMap spread).length + (spread merged).length < 2 ^ 64 →
    (spread (mergedFrom objects merged)).Perm (objects.flatMap kept ++ spread merged)
  | [], _, _, _ => .refl _
  | entries :: objects, merged, hs, hlt => by
    rw [List.flatMap_cons, List.length_append] at hlt
    have hstored := perm_stored entries
    have hle := (kept_sublist entries).length_le
    rw [← hstored.length_eq] at hle
    have hadded := @perm_added (stored entries) merged hs (by omega)
    have hlength := hadded.length_eq
    rw [List.length_append] at hlength
    have hrest : (objects.flatMap spread).length + (spread (added (stored entries) merged)).length < 2 ^ 64 := by
      omega
    have ih := perm_mergedFrom (sorted_added hs) hrest
    rw [mergedFrom_cons, List.flatMap_cons, List.append_assoc]
    refine ih.trans ((hadded.append_left _).trans ?_)
    exact (List.perm_append_comm_assoc _ _ _).trans (hstored.append_right _)

/-- **No count is lost but by overwriting**, and none is made up. -/
theorem Source.perm_spread {source : Source} (hlt : (source.objects.flatMap spread).length < 2 ^ 64) :
    (spread source.counts).Perm (source.objects.flatMap kept) := by
  cases source with
  | object entries =>
    show (spread (stored entries)).Perm ([entries].flatMap kept)
    rw [List.flatMap_singleton]
    exact perm_stored entries
  | registers objects =>
    have h := @perm_mergedFrom objects [] .nil hlt
    rw [show spread [] = [] from rfl, List.append_nil] at h
    exact h

/-! ### Outcomes -/

/-- The JSON value of a reply. -/
def Reads (P : SafePickle.Platform) (parse : Bytes → Except Exn Json) (reply : List UInt8) (value : Json) :
    Prop :=
  ∃ (h : reply.length < 2 ^ 63) (decoded : Json), SafePickle.decode P ⟨reply, h⟩ = .ok decoded ∧
    replyJson parse decoded = .ok value

section Outcomes

variable {V : OutcomeVector} {P : SafePickle.Platform} {parse : Bytes → Except Exn Json} {shots : ℕ}
  {reply : List UInt8} {value : Json} {source : Source}

theorem qmioOutcomes_located (hreply : Reads P parse reply value) (hsource : located value = some source) :
    qmioOutcomes V P parse shots reply = expandCounts V shots source.counts := by
  obtain ⟨hlt, decoded, hdecode, hjson⟩ := hreply
  have hcounts : countsFromJson value = .ok source.counts := by rw [countsFromJson_eq, hsource]
  unfold qmioOutcomes
  rw [dif_pos hlt, hdecode, ok_bind, hjson, ok_bind, hcounts, ok_bind]

theorem exists_key_iff {p : Bytes → Prop} : (∃ e ∈ source.counts, p e.1) ↔
    ∃ e ∈ source.objects.flatten, p (normalizeBitstring e.1) := by
  have hkeys := fun k => source.keys_counts (k := k)
  simp only [List.mem_map] at hkeys
  constructor
  · rintro ⟨e, he, hp⟩
    obtain ⟨e', he', hkey⟩ := (hkeys e.1).mp ⟨e, he, rfl⟩
    exact ⟨e', he', hkey ▸ hp⟩
  · rintro ⟨e, he, hp⟩
    obtain ⟨e', he', hkey⟩ := (hkeys _).mpr ⟨e, he, rfl⟩
    exact ⟨e', he', hkey ▸ hp⟩

theorem forall_key_iff {p : Bytes → Prop} : (∀ e ∈ source.counts, p e.1) ↔
    ∀ e ∈ source.objects.flatten, p (normalizeBitstring e.1) := by
  have h := @exists_key_iff source fun k => ¬ p k
  simpa only [not_exists, not_and, not_not] using not_congr h

/-- Located counts throw for their keys only. -/
theorem exists_throwing_iff (h : source.Counted) : (∃ e ∈ source.counts, Throwing e) ↔
    ∃ e ∈ source.objects.flatten, Refused (normalizeBitstring e.1) := by
  rw [← exists_key_iff]
  refine exists_congr fun e => and_congr_right fun he => or_iff_left ?_
  rw [source.sized_counts h e he]
  exact fun ⟨_, hx⟩ => nomatch hx

/-- How often some counts have a key for `v`. -/
def shotsOf (v : ℕ) (entries : Entries) : ℕ :=
  ((entries.filter fun e => valueOf 2 (normalizeBitstring e.1) = v).map fun e => countOf e.2).sum

theorem count_spread (v : ℕ) : ∀ entries : Entries, (spread entries).count v = shotsOf v entries
  | [] => rfl
  | e :: entries => by
    show (List.replicate (countOf e.2) _ ++ spread entries).count v = _
    rw [List.count_append, count_spread v entries, List.count_replicate]
    unfold shotsOf
    rw [List.filter_cons]
    by_cases hv : valueOf 2 (normalizeBitstring e.1) = v
    · simp [hv]
    · simp [hv]

theorem flatMap_spread : ∀ objects : List Entries, objects.flatMap spread = spread objects.flatten
  | [] => rfl
  | entries :: objects => by
    rw [List.flatMap_cons, flatMap_spread objects, List.flatten_cons]
    exact List.flatMap_append.symm

/-- Some objects are kept whole exactly if each is. -/
theorem length_flatMap_kept_iff : ∀ objects : List Entries,
    (objects.flatMap kept).length = (objects.flatMap spread).length ↔ ∀ entries ∈ objects, Lossless entries
  | [] => ⟨nofun, fun _ => rfl⟩
  | entries :: objects => by
    have hle := (kept_sublist entries).length_le
    have hles : (objects.flatMap kept).length ≤ (objects.flatMap spread).length :=
      (List.Sublist.flatMap_right objects fun es _ => kept_sublist es).length_le
    rw [List.flatMap_cons, List.flatMap_cons, List.length_append, List.length_append, List.forall_mem_cons,
      ← length_flatMap_kept_iff objects, ← length_kept_iff]
    omega

/-- The stored counts have all the shots exactly if nothing is overwritten. -/
theorem count_spread_iff (hlt : (source.objects.flatMap spread).length < 2 ^ 64) :
    (∀ v, (spread source.counts).count v = shotsOf v source.objects.flatten) ↔
      ∀ entries ∈ source.objects, Lossless entries := by
  have hperm := source.perm_spread hlt
  have hsub : (source.objects.flatMap kept).Sublist (source.objects.flatMap spread) :=
    List.Sublist.flatMap_right _ fun es _ => kept_sublist es
  simp only [← count_spread, ← flatMap_spread]
  rw [← length_flatMap_kept_iff, ← hperm.length_eq]
  constructor
  · exact fun h => (List.perm_iff_count.mpr h).length_eq
  · intro h v
    have hall : (source.objects.flatMap kept).Perm (source.objects.flatMap spread) :=
      hsub.subperm.perm_of_length_le (hperm.length_eq ▸ h.ge)
    exact (hperm.trans hall).count_eq v

/-- A located object whose keys are binary digits is read as what is stored. -/
theorem expandCounts_source (h : source.Counted)
    (hbinary : ∀ e ∈ source.objects.flatten, IsBinary (normalizeBitstring e.1)) {outcomes : List ℕ} :
    expandCounts V shots source.counts = .ok outcomes ↔
      (V.Fits shots source.counts ∧ ∀ e ∈ source.objects.flatten, ¬ Refused (normalizeBitstring e.1)) ∧
        outcomes = spread source.counts := by
  have hthrow := exists_throwing_iff h
  have hread : (source.counts.flatMap fun e => List.replicate (countOf e.2) (reading e.1)) =
      spread source.counts := by
    refine List.flatMap_congr fun e he => ?_
    have hidem : normalizeBitstring e.1 = e.1 :=
      (@forall_key_iff source fun k => normalizeBitstring k = k).mpr (fun e _ => normalize_idem e.1) e he
    have hkey : IsBinary (normalizeBitstring e.1) := hidem.symm ▸ forall_key_iff.mpr hbinary e he
    rw [(converted_first hkey).1, hidem, converted, (digitsOf_binary (hidem ▸ hkey)).1,
      (digitsOf_binary (hidem ▸ hkey)).2.1]
  rw [expandCounts_eq_ok, hread]
  refine and_congr_left fun _ => and_congr_right fun _ => ?_
  simpa only [not_exists, not_and] using not_congr hthrow

/-- **Every shot of the reply is an outcome**, and nothing else, exactly if there are no outcomes
or no entry overwrites one with a count: of the entries of one object under one key, all but the
last have count 0. There are none if the vector has no room for them or some key is refused. -/
theorem qmioOutcomes_counts {counts : Entries} (hreply : Reads P parse reply value)
    (hcounts : countsFromJson value = .ok counts) (V : OutcomeVector) (shots : ℕ) :
    ∃ source, located value = some source ∧
      ((∀ e ∈ source.objects.flatten, IsBinary (normalizeBitstring e.1)) →
        (source.objects.flatten.map fun e => countOf e.2).sum < 2 ^ 63 →
        ((∃ outcomes, qmioOutcomes V P parse shots reply = .ok outcomes) ↔
          V.Fits shots counts ∧ ∀ e ∈ source.objects.flatten, ¬ Refused (normalizeBitstring e.1)) ∧
        ((∀ outcomes, qmioOutcomes V P parse shots reply = .ok outcomes →
            ∀ v, outcomes.count v = shotsOf v source.objects.flatten) ↔
          ¬ V.Fits shots counts ∨ (∃ e ∈ source.objects.flatten, Refused (normalizeBitstring e.1)) ∨
            ∀ entries ∈ source.objects, Lossless entries)) := by
  rw [countsFromJson_eq] at hcounts
  cases hsource : located value with
  | none =>
    rw [hsource] at hcounts
    cases hcounts
  | some source =>
    rw [hsource] at hcounts
    obtain rfl : source.counts = counts := Except.ok.inj hcounts
    refine ⟨source, rfl, fun hbinary htotal => ?_⟩
    have hrun : ∀ outcomes, expandCounts V shots source.counts = .ok outcomes ↔ _ := fun _ =>
      expandCounts_source (located_counted hsource) hbinary
    have hlt : (source.objects.flatMap spread).length < 2 ^ 64 := by
      rw [flatMap_spread, length_spread]
      omega
    rw [← count_spread_iff hlt, qmioOutcomes_located hreply hsource]
    simp only [hrun]
    constructor
    · exact ⟨fun ⟨_, h, _⟩ => h, fun h => ⟨_, h, rfl⟩⟩
    · by_cases hnone : ¬ V.Fits shots source.counts ∨
          ∃ e ∈ source.objects.flatten, Refused (normalizeBitstring e.1)
      · refine iff_of_true (fun outcomes h => ?_) (hnone.imp_right .inl)
        obtain hnofit | ⟨e, he, hr⟩ := hnone
        · exact absurd h.1.1 hnofit
        · exact absurd hr (h.1.2 e he)
      · rw [not_or, not_not] at hnone
        obtain ⟨hfits, hrefused⟩ := hnone
        have hok : ∀ e ∈ source.objects.flatten, ¬ Refused (normalizeBitstring e.1) :=
          fun e he hr => hrefused ⟨e, he, hr⟩
        rw [or_iff_right (not_not.mpr hfits), or_iff_right hrefused]
        exact ⟨fun h v => h _ ⟨⟨hfits, hok⟩, rfl⟩ v, fun h outcomes ⟨_, heq⟩ v => heq ▸ h v⟩

end Outcomes

/-! ### Two spellings of a key -/

/-- A parser that knows one value, and the reply that it is given. -/
def parseOne (value : Json) (_ : Bytes) : Except Exn Json := return value

theorem reads_one (value : Json) :
    Reads SafePickle.plain (parseOne value) RemoteReadout.textReply value := by
  have hlt : RemoteReadout.textReply.length < 2 ^ 63 := by decide
  have hstring : RemoteReadout.textReply.length ≤ SafePickle.plain.maxString := by decide
  have hpickled : SafePickle.Pickled (.str [106]) RemoteReadout.textReply :=
    RemoteReadout.pickled_pickle (RemoteReadout.emits_textTokens _ 106)
  refine ⟨hlt, .string [106], ?_, rfl⟩
  rw [SafePickle.decode_stream (b := ⟨RemoteReadout.textReply, hlt⟩) hstring (fun _ _ => rfl) hpickled,
    SafePickle.toJson_str]

/-- Counts under two spellings of one key. -/
def spellings (first second : ℕ) : Entries := [([48, 32, 49], .unsigned first), ([48, 49], .unsigned second)]

/-- The first spelling has no counts to lose. -/
theorem qmioOutcomes_spellings : located (.object (spellings 0 5)) = some (.object (spellings 0 5)) ∧
    ∀ outcomes, qmioOutcomes CUNQABackend.largest SafePickle.plain (parseOne (.object (spellings 0 5))) 5
      RemoteReadout.textReply = .ok outcomes → ∀ v, outcomes.count v = shotsOf v (spellings 0 5) := by
  refine ⟨rfl, ?_⟩
  obtain ⟨source, hsource, h⟩ := qmioOutcomes_counts (reads_one (.object (spellings 0 5))) rfl CUNQABackend.largest 5
  obtain rfl : Source.object (spellings 0 5) = source := Option.some.inj hsource
  have hbinary : ∀ e ∈ [spellings 0 5].flatten, IsBinary (normalizeBitstring e.1) := by
    unfold IsBinary
    decide +kernel
  refine (h hbinary (by decide)).2.mpr (.inr (.inr fun entries hentries => ?_))
  rw [List.mem_singleton.mp hentries]
  unfold Lossless
  decide

/-- Counts under the first spelling are lost. -/
theorem qmioOutcomes_overwritten : located (.object (spellings 3 5)) = some (.object (spellings 3 5)) ∧
    ∃ outcomes, qmioOutcomes CUNQABackend.largest SafePickle.plain (parseOne (.object (spellings 3 5))) 8
      RemoteReadout.textReply = .ok outcomes ∧ outcomes.count 1 = 5 ∧ shotsOf 1 (spellings 3 5) = 8 := by
  have hsource : located (.object (spellings 3 5)) = some (.object (spellings 3 5)) := rfl
  refine ⟨hsource, List.replicate 5 1, ?_, by decide, by decide⟩
  rw [qmioOutcomes_located (reads_one _) hsource]
  rfl

end Qmio

/-! ### Keys of both backends -/

open Qmio

/-- A key without whitespace is read right if all of it is converted. -/
theorem readRight_normalized {e : Bytes × Json} (h : normalizeBitstring e.1 = e.1) :
    ReadRight e ↔ converted e.1 = e.1 := by
  unfold ReadRight
  rw [h]
  refine or_iff_left_of_imp fun ⟨hbinary, _⟩ => ?_
  obtain ⟨hdrop, hdigits, -⟩ := digitsOf_binary hbinary
  rw [converted, hdrop, hdigits]

theorem whole_normalize {key : Bytes} : Whole (normalizeBitstring key) ↔ Whole key := by
  constructor
  · rintro ⟨hbinary, hnil, hlt⟩
    rw [normalize_idem] at hbinary hnil hlt
    exact ⟨hbinary, hnil, hlt⟩
  · rintro ⟨hbinary, hnil, hlt⟩
    rw [← normalize_idem] at hbinary hnil hlt
    exact ⟨hbinary, hnil, hlt⟩

/-- **When the keys of a reply are read whole.** The outcomes of CUNQA and QMIO, if there are any,
are the numbers that the keys are as a whole exactly if the vector has no room for them, some entry
makes the reply be rejected, or the digits that are converted are all of each key: for CUNQA
apart from whitespace around them, or with whitespace between them if that makes no difference. -/
theorem outcomes_whole_iff (V : OutcomeVector) (parse : Bytes → Except Exn Json) (shots : ℕ) (reply : Bytes) :
    (∀ response entries, parse reply = .ok response → response.contains "ERROR" = false →
      cunqaCounts response = .ok (.object entries) →
      ((∀ outcomes, cunqaOutcomes V parse shots reply = .ok outcomes → ReadsWhole entries outcomes) ↔
        ¬ V.Fits shots entries ∨ (∃ e ∈ entries, Throwing e) ∨ ∀ e ∈ entries, ReadRight e)) ∧
    ∀ P value source, Reads P parse reply value → located value = some source →
      ((∀ outcomes, qmioOutcomes V P parse shots reply = .ok outcomes →
          (∀ e ∈ source.objects.flatten, Whole e.1) ∧ outcomes = spread source.counts) ↔
        ¬ V.Fits shots source.counts ∨ (∃ e ∈ source.objects.flatten, Refused (normalizeBitstring e.1)) ∨
          ∀ e ∈ source.objects.flatten, converted (normalizeBitstring e.1) = normalizeBitstring e.1) := by
  refine ⟨fun response entries hparse herror hcounts => ?_, fun P value source hreply hsource => ?_⟩
  · have hrun : cunqaOutcomes V parse shots reply = expandCounts V shots entries := by
      unfold cunqaOutcomes
      rw [hparse, ok_bind, herror, if_neg Bool.false_ne_true, hcounts, ok_bind]
      rfl
    rw [hrun]
    exact expandCounts_readsWhole V shots entries
  · have hidem : ∀ e ∈ source.counts, normalizeBitstring e.1 = e.1 :=
      (@forall_key_iff source fun k => normalizeBitstring k = k).mpr fun e _ => normalize_idem e.1
    have hwhole : (∀ e ∈ source.counts, Whole e.1) ↔ ∀ e ∈ source.objects.flatten, Whole e.1 :=
      forall_key_iff.trans (forall₂_congr fun _ _ => whole_normalize)
    have hright : (∀ e ∈ source.counts, ReadRight e) ↔
        ∀ e ∈ source.objects.flatten, converted (normalizeBitstring e.1) = normalizeBitstring e.1 :=
      (forall₂_congr fun e he => readRight_normalized (hidem e he)).trans
        (@forall_key_iff source fun k => converted k = k)
    rw [qmioOutcomes_located hreply hsource, ← hright, ← exists_throwing_iff (located_counted hsource),
      ← expandCounts_readsWhole]
    refine forall₂_congr fun outcomes _ => ?_
    rw [← hwhole]
    exact ⟨fun ⟨h, h'⟩ => ⟨h, h'⟩, fun ⟨h, h'⟩ => ⟨h, h'⟩⟩

/-- The counts `{"0x3": 2}`. -/
def hexadecimal : Entries := [([48, 120, 51], .unsigned 2)]

/-- Both backends read the key `0x3` as the outcome 0, CUNQA the key `0 1` as well. -/
theorem outcomes_misread :
    (∃ outcomes, cunqaOutcomes CUNQABackend.largest (parseOne (.object [(ascii "counts", .object hexadecimal)])) 2
        [] = .ok outcomes ∧ outcomes = [0, 0] ∧ ¬ ReadsWhole hexadecimal outcomes) ∧
    (located (.object hexadecimal) = some (.object hexadecimal) ∧ ∃ outcomes,
      qmioOutcomes CUNQABackend.largest SafePickle.plain (parseOne (.object hexadecimal)) 2
        RemoteReadout.textReply = .ok outcomes ∧ outcomes = [0, 0] ∧ ¬ ∀ e ∈ hexadecimal, Whole e.1) ∧
    ∃ outcomes, cunqaOutcomes CUNQABackend.largest
      (parseOne (.object [(ascii "counts", .object (spellings 2 0))])) 2 [] = .ok outcomes ∧
      outcomes = [0, 0] ∧ ¬ ReadsWhole (spellings 2 0) outcomes := by
  have hkey : ¬ Whole [48, 120, 51] := fun h => absurd (h.binary 120 (by decide)) (by decide)
  have hsource : located (.object hexadecimal) = some (.object hexadecimal) := rfl
  refine ⟨⟨[0, 0], rfl, rfl, fun h => ?_⟩, ⟨hsource, [0, 0], ?_, rfl, fun h => ?_⟩, [0, 0], rfl, rfl, fun h => ?_⟩
  · exact hkey (h.whole _ List.mem_cons_self)
  · rw [qmioOutcomes_located (reads_one _) hsource]
    rfl
  · exact hkey (h _ List.mem_cons_self)
  · exact absurd h.outcomes (by decide)

end Qsycl
