/-
# The angles of an exported program

`to_qasm2` prints angles with the default flags of its stream. The program
holds the literals of `exportedAngles` and nothing else in parentheses
(`literals_program`), and two programs of the same labels and qubits differ only
in them (`toQasm2_eq_iff`). So what the six digits lose is lost from the program
(`exportedAngles_survive_iff`).
-/
import Qsycl.CircuitRuns
import Qsycl.Doubles
import Qsycl.Translators

namespace Qsycl

open Rounding

/-! ### The literals of a text -/

/-- What stands between parentheses; the first argument is what was read since
the last open one. -/
def literals : Option (List Char) → List Char → List String
  | _, [] => []
  | none, c :: s => if c = '(' then literals (some []) s else literals none s
  | some seen, c :: s => if c = ')' then .ofList seen :: literals none s else literals (some (seen ++ [c])) s

/-- The literals of a program. -/
def literalsOf (program : String) : List String := literals none program.toList

theorem literals_outside {s : List Char} (h : '(' ∉ s) (t : List Char) :
    literals none (s ++ t) = literals none t := by
  induction s with
  | nil => rfl
  | cons c s ih =>
    rw [List.mem_cons, not_or] at h
    rw [List.cons_append, literals, if_neg (Ne.symm h.1), ih h.2]

theorem literals_inside {s : List Char} (h : ')' ∉ s) (seen t : List Char) :
    literals (some seen) (s ++ ')' :: t) = .ofList (seen ++ s) :: literals none t := by
  induction s generalizing seen with
  | nil => rw [List.nil_append, literals, if_pos rfl, List.append_nil]
  | cons c s ih =>
    rw [List.mem_cons, not_or] at h
    rw [List.cons_append, literals, if_neg (Ne.symm h.1), ih h.2, List.append_assoc]
    rfl

/-- A text without an open parenthesis. -/
def Plain (s : String) : Prop := '(' ∉ s.toList

instance Plain.instDecidable (s : String) : Decidable (Plain s) := inferInstanceAs (Decidable (_ ∉ _))

theorem Plain.append {s t : String} (hs : Plain s) (ht : Plain t) : Plain (s ++ t) := by
  unfold Plain
  rw [String.toList_append, List.mem_append]
  exact not_or.mpr ⟨hs, ht⟩

theorem plain_toString (n : ℕ) : Plain (toString n) := by
  intro h
  rw [Nat.toString_eq_repr, Nat.toList_repr] at h
  have hdigit := Nat.isDigit_of_mem_toDigits (by decide) (by decide) h
  exact absurd hdigit (by decide)

theorem plain_intercalate : ∀ {l : List String}, (∀ s ∈ l, Plain s) → Plain (",".intercalate l)
  | [], _ => by
    rw [String.intercalate_nil]
    decide
  | [s], h => by
    rw [String.intercalate_singleton]
    exact h s (List.mem_singleton_self s)
  | s :: t :: l, h => by
    rw [String.intercalate_cons_cons]
    exact ((h s List.mem_cons_self).append (by decide)).append
      (plain_intercalate fun u hu => h u (List.mem_cons_of_mem _ hu))

/-- A literal has no closed parenthesis. -/
theorem notMem_printDouble (a : Double) : ')' ∉ (printDouble a).toList := by
  intro h
  rcases mem_printDouble h with h | h
  · exact absurd h (by decide)
  · exact absurd h (by decide)

/-! ### The statements -/

def NamedGate.map {R S : Type} (f : R → S) (g : NamedGate R) : NamedGate S := ⟨g.name, g.angles.map f, g.qubits⟩

/-- The text of a gate shows its angles as they are printed. -/
theorem Qasm.text_gate {R : Type} (digits : R → String) (g : NamedGate R) :
    (Qasm.gate g).text digits = (Qasm.gate (g.map digits)).text id := by
  simp [Qasm.text, NamedGate.map]

/-- The angles of a statement. -/
def Qasm.angles {R : Type} : Qasm R → List R
  | gate g => g.angles
  | _ => []

/-- Names are plain, and a gate has one angle at most. -/
def Qasm.Regular {R : Type} : Qasm R → Prop
  | openqasm version => Plain version
  | includeFile file => Plain file
  | gate g => Plain g.name ∧ g.angles.length ≤ 1
  | _ => True

/-- The qubits of a gate, as they are printed. -/
theorem plain_qubits (qubits : List ℕ) :
    Plain (" " ++ ",".intercalate (qubits.map fun q => "q[" ++ toString q ++ "]") ++ ";\n") := by
  refine (Plain.append (by decide) (plain_intercalate fun s hs => ?_)).append (by decide)
  obtain ⟨q, -, rfl⟩ := List.mem_map.mp hs
  exact (Plain.append (by decide) (plain_toString q)).append (by decide)

/-- A statement has the literals of its angles. -/
theorem literals_text {s : Qasm Double} (h : s.Regular) (t : List Char) :
    literals none ((s.text printDouble).toList ++ t) = s.angles.map printDouble ++ literals none t := by
  cases s with
  | openqasm version => exact literals_outside ((Plain.append (by decide) h).append (by decide)) t
  | includeFile file => exact literals_outside ((Plain.append (by decide) h).append (by decide)) t
  | qreg size => exact literals_outside ((Plain.append (by decide) (plain_toString size)).append (by decide)) t
  | creg size => exact literals_outside ((Plain.append (by decide) (plain_toString size)).append (by decide)) t
  | measure qubit clbit =>
    exact literals_outside ((((Plain.append (by decide) (plain_toString qubit)).append (by decide)).append
      (plain_toString clbit)).append (by decide)) t
  | gate g =>
    obtain ⟨name, angles, qubits⟩ := g
    obtain ⟨hname, hone⟩ := h
    match angles, hone with
    | [], _ =>
      have htext : Qasm.text printDouble (.gate ⟨name, [], qubits⟩) = name ++
          (" " ++ ",".intercalate (qubits.map fun q => "q[" ++ toString q ++ "]") ++ ";\n") := by
        simp [Qasm.text, String.append_assoc]
      rw [htext]
      exact literals_outside (hname.append (plain_qubits qubits)) t
    | [a], _ =>
      have htext : (Qasm.text printDouble (.gate ⟨name, [a], qubits⟩)).toList = name.toList ++ '(' ::
          ((printDouble a).toList ++ ')' ::
            (" " ++ ",".intercalate (qubits.map fun q => "q[" ++ toString q ++ "]") ++ ";\n").toList) := by
        simp [Qasm.text, String.append_assoc]
      rw [htext, List.append_assoc, literals_outside hname, List.cons_append, literals, if_pos rfl,
        List.append_assoc, List.cons_append, literals_inside (notMem_printDouble a),
        literals_outside (plain_qubits qubits), List.nil_append, String.ofList_toList]
      rfl

/-! ### The gates of an operation -/

section Export

variable {R : Type} [Neg R] [Div R] [OfNat R 2]

/-- The angles that are printed for an operation: its own, or the halves for a
controlled rotation. -/
def exportedAngles (op : GateOp R) : List R :=
  let label := lower op.label
  if oneOf label ["rx", "ry", "rz", "p", "u1"] then op.params.take 1
  else if oneOf label ["crx", "cry", "crz"] then
    (op.params.take 1).flatMap fun theta => [theta / 2, -theta / 2]
  else []

/-- The number of angles that are printed for an operation. -/
def angleCount (label : String) : ℕ :=
  if oneOf label ["rx", "ry", "rz", "p", "u1"] then 1
  else if oneOf label ["crx", "cry", "crz"] then 1 + 1
  else 0

/-- What the gates of an operation are, given the angles that they have. -/
def gatesFor {S : Type} (label : String) (qubits : List ℕ) (angles : List S) : List (NamedGate S) :=
  if oneOf label ["crx", "cry", "crz"] then
    match qubits, angles with
    | control :: target :: _, [plus, minus] =>
      let axis := if label == "cry" then "ry" else "rz"
      let turns := [⟨axis, [plus], [target]⟩, ⟨"cx", [], [control, target]⟩,
        ⟨axis, [minus], [target]⟩, ⟨"cx", [], [control, target]⟩]
      if label == "crx" then ⟨"h", [], [target]⟩ :: turns ++ [⟨"h", [], [target]⟩] else turns
    | _, _ => []
  else
    let arity := if oneOf label ["cx", "cy", "cz", "swap", "ch"] then 2 else 1
    [⟨if label == "p" then "u1" else label, angles, qubits.take arity⟩]

theorem oneOf_iff {s : String} {options : List String} : oneOf s options = true ↔ s ∈ options := by
  simp [oneOf]

theorem vecAt_zero_eq_ok {α : Type} {v : List α} {x : α} (h : vecAt v 0 = .ok x) :
    ∃ rest, v = x :: rest :=
  List.head?_eq_some_iff.mp (List.head?_eq_getElem?.trans (vecAt_eq_ok.mp h))

theorem map_gatesFor {S T : Type} (f : S → T) (label : String) (qubits : List ℕ) (angles : List S) :
    (gatesFor label qubits angles).map (NamedGate.map f) = gatesFor label qubits (angles.map f) := by
  unfold gatesFor
  split
  · match qubits, angles with
    | [], _ => rfl
    | [_], _ => rfl
    | _ :: _ :: _, [] => rfl
    | _ :: _ :: _, [_] => rfl
    | _ :: _ :: _, [_, _] =>
      show List.map _ (if _ then _ else _) = _
      split <;> rfl
    | _ :: _ :: _, _ :: _ :: _ :: _ => rfl
  · rfl

/-- `gates` are printed for `op`. -/
structure Exported (op : GateOp R) (gates : List (NamedGate R)) : Prop where
  eq : gates = gatesFor (lower op.label) op.qubits (exportedAngles op)
  regular : ∀ g ∈ gates, Plain g.name ∧ g.angles.length ≤ 1
  angles : gates.flatMap NamedGate.angles = exportedAngles op
  length : (exportedAngles op).length = angleCount (lower op.label)

/-- A gate that is printed as one. -/
theorem Exported.single {op : GateOp R} {gates : List (NamedGate R)} {arity : ℕ} {name : String}
    (hname : name = if lower op.label == "p" then "u1" else lower op.label)
    (hgates : gates = [⟨name, exportedAngles op, op.qubits.take arity⟩])
    (hcr : oneOf (lower op.label) ["crx", "cry", "crz"] = false)
    (harity : (if oneOf (lower op.label) ["cx", "cy", "cz", "swap", "ch"] then 2 else 1) = arity)
    (hplain : Plain name) (hlength : (exportedAngles op).length = angleCount (lower op.label)) :
    Exported op gates where
  eq := by
    unfold gatesFor
    rw [hcr, if_neg Bool.false_ne_true, harity, ← hname]
    exact hgates
  regular := by
    rw [hgates]
    refine List.forall_mem_singleton.mpr ⟨hplain, ?_⟩
    rw [hlength, angleCount, hcr]
    split <;> decide
  angles := by
    rw [hgates]
    exact List.append_nil _
  length := hlength

/-- A gate that is printed without angles. -/
theorem Exported.fixed (arity : ℕ) {op : GateOp R} {gates : List (NamedGate R)} {labels : List String}
    (hl : lower op.label ∈ labels)
    (hlabels : ∀ label ∈ labels, oneOf label ["rx", "ry", "rz", "p", "u1"] = false ∧
      oneOf label ["crx", "cry", "crz"] = false ∧ Plain (if label == "p" then "u1" else label) ∧
      (if oneOf label ["cx", "cy", "cz", "swap", "ch"] then 2 else 1) = arity)
    (hgates : gates = [⟨if lower op.label == "p" then "u1" else lower op.label, [], op.qubits.take arity⟩]) :
    Exported op gates := by
  obtain ⟨hr, hcr, hplain, harity⟩ := hlabels _ hl
  have hangles : exportedAngles op = [] := by simp [exportedAngles, hr, hcr]
  apply Exported.single rfl _ hcr harity hplain
  · simp [hangles, angleCount, hr, hcr]
  · rw [hangles, hgates]

/-- A rotation. -/
theorem Exported.rotation {op : GateOp R} {gates : List (NamedGate R)} {a : R} {params : List R}
    (hl : oneOf (lower op.label) ["rx", "ry", "rz", "p", "u1"] = true) (hparams : op.params = a :: params)
    (hgates : gates = [⟨if lower op.label == "p" then "u1" else lower op.label, [a], op.qubits.take 1⟩]) :
    Exported op gates := by
  have hlabels : ∀ label ∈ ["rx", "ry", "rz", "p", "u1"], oneOf label ["crx", "cry", "crz"] = false ∧
      Plain (if label == "p" then "u1" else label) ∧
      (if oneOf label ["cx", "cy", "cz", "swap", "ch"] then 2 else 1) = 1 := by decide
  obtain ⟨hcr, hplain, harity⟩ := hlabels _ (oneOf_iff.mp hl)
  have hangles : exportedAngles op = [a] := by simp [exportedAngles, hl, hparams]
  apply Exported.single rfl _ hcr harity hplain
  · simp [hangles, angleCount, hl]
  · rw [hangles, hgates]

/-- A controlled rotation. -/
theorem Exported.controlled {op : GateOp R} {gates : List (NamedGate R)} {control target : ℕ} {qubits : List ℕ}
    {theta : R} {params : List R} (hl : lower op.label ∈ ["crx", "cry", "crz"])
    (hqubits : op.qubits = control :: target :: qubits) (hparams : op.params = theta :: params)
    (hgates : gates = gatesFor (lower op.label) (control :: target :: qubits) [theta / 2, -theta / 2]) :
    Exported op gates := by
  have hr : ∀ label ∈ ["crx", "cry", "crz"], oneOf label ["rx", "ry", "rz", "p", "u1"] = false := by decide
  have hangles : exportedAngles op = [theta / 2, -theta / 2] := by
    simp [exportedAngles, hr _ hl, oneOf_iff.mpr hl, hparams]
  have hlabel : lower op.label = "crx" ∨ lower op.label = "cry" ∨ lower op.label = "crz" := by simpa using hl
  have hplain : Plain "h" ∧ Plain "rz" ∧ Plain "ry" ∧ Plain "cx" := by decide
  refine ⟨by rw [hgates, hqubits, hangles], ?_, ?_, ?_⟩
  · rcases hlabel with hl | hl | hl
    all_goals
      rw [hgates, hl]
      simp [gatesFor, oneOf, hplain]
  · rw [hgates, hangles]
    rcases hlabel with hl | hl | hl
    all_goals
      rw [hl]
      rfl
  · rw [hangles]
    rcases hlabel with hl | hl | hl
    all_goals
      rw [hl]
      rfl

theorem exported_of_ok {op : GateOp R} {gates : List (NamedGate R)} (h : toQasm2Gate op = .ok gates) :
    Exported op gates := by
  unfold toQasm2Gate at h
  dsimp only at h
  by_cases hone : oneOf (lower op.label) ["id", "x", "y", "z", "h", "s", "sdg", "sx", "sxdg", "t", "tdg"] = true
  · rw [if_pos hone] at h
    split at h
    · cases h
    obtain ⟨q, hq, h⟩ := bind_eq_ok.mp h
    obtain ⟨qubits, hqubits⟩ := vecAt_zero_eq_ok hq
    apply Exported.fixed 1 (oneOf_iff.mp hone) (by decide)
    rw [hqubits]
    exact (Except.ok.inj h).symm
  rw [if_neg hone] at h
  by_cases htwo : oneOf (lower op.label) ["cx", "cy", "cz", "swap", "ch"] = true
  · rw [if_pos htwo] at h
    split at h
    · cases h
    obtain ⟨q, hq, h⟩ := bind_eq_ok.mp h
    obtain ⟨qubits, hqubits⟩ := vecAt_zero_eq_ok hq
    rw [hqubits, vecAt_succ] at h
    obtain ⟨r, hr, h⟩ := bind_eq_ok.mp h
    obtain ⟨rest, hrest⟩ := vecAt_zero_eq_ok hr
    apply Exported.fixed 2 (oneOf_iff.mp htwo) (by decide)
    rw [hqubits, hrest]
    exact (Except.ok.inj h).symm
  rw [if_neg htwo] at h
  by_cases hrot : oneOf (lower op.label) ["rx", "ry", "rz", "p", "u1"] = true
  · rw [if_pos hrot] at h
    split at h
    · cases h
    obtain ⟨a, ha, h⟩ := bind_eq_ok.mp h
    obtain ⟨params, hparams⟩ := vecAt_zero_eq_ok ha
    obtain ⟨q, hq, h⟩ := bind_eq_ok.mp h
    obtain ⟨qubits, hqubits⟩ := vecAt_zero_eq_ok hq
    apply Exported.rotation hrot hparams
    rw [hqubits]
    exact (Except.ok.inj h).symm
  rw [if_neg hrot] at h
  by_cases hcr : oneOf (lower op.label) ["crx", "cry", "crz"] = true
  · rw [if_pos hcr] at h
    split at h
    · cases h
    obtain ⟨control, hcontrol, h⟩ := bind_eq_ok.mp h
    obtain ⟨qubits, hqubits⟩ := vecAt_zero_eq_ok hcontrol
    rw [hqubits, vecAt_succ] at h
    obtain ⟨target, htarget, h⟩ := bind_eq_ok.mp h
    obtain ⟨rest, hrest⟩ := vecAt_zero_eq_ok htarget
    obtain ⟨theta, htheta, h⟩ := bind_eq_ok.mp h
    obtain ⟨params, hparams⟩ := vecAt_zero_eq_ok htheta
    have hlabel : lower op.label = "crx" ∨ lower op.label = "cry" ∨ lower op.label = "crz" := by
      simpa using oneOf_iff.mp hcr
    apply Exported.controlled (oneOf_iff.mp hcr) (by rw [hqubits, hrest]) hparams
    rcases hlabel with hl | hl | hl
    all_goals
      rw [hl] at h ⊢
      exact (Except.ok.inj h).symm
  · rw [if_neg hcr] at h
    cases h

/-- The gates that are printed for an operation. -/
def exportedGates (op : GateOp R) : List (NamedGate R) :=
  gatesFor (lower op.label) op.qubits (exportedAngles op)

/-- What is printed of a list of operations. -/
theorem qasmProgram_exported {n : ℕ} {ops : List (GateOp R)} {measured : List ℕ} {program : List (Qasm R)}
    (h : qasmProgram n ops measured = .ok program) : (∀ op ∈ ops, Exported op (exportedGates op)) ∧
      program = [.openqasm "3.0", .includeFile "qelib1.inc", .qreg n, .creg measured.length] ++
        (ops.flatMap exportedGates).map .gate ++ measured.zipIdx.map fun m => .measure m.1 m.2 := by
  obtain ⟨statements, hs, h⟩ := bind_eq_ok.mp h
  have hgates : ∀ op ∈ ops, toQasm2Gate op = .ok (exportedGates op) := fun op hop => by
    obtain ⟨gates, hg⟩ := mapM_ok_iff.mp ⟨statements, hs⟩ op hop
    rw [hg, (exported_of_ok hg).eq]
    rfl
  rw [mapM_eq_ok hgates] at hs
  obtain rfl := Except.ok.inj hs
  exact ⟨fun op hop => exported_of_ok (hgates op hop), (Except.ok.inj h).symm⟩

/-- Operations with the same labels and qubits whose angles are printed alike
have the same gates, as they are printed. -/
theorem exportedGates_congr {S : Type} (digits : R → S) : ∀ {ops ops' : List (GateOp R)},
    ops.map (fun op => (op.label, op.qubits)) = ops'.map (fun op => (op.label, op.qubits)) →
    (∀ op ∈ ops, Exported op (exportedGates op)) → (∀ op ∈ ops', Exported op (exportedGates op)) →
    (ops.flatMap exportedAngles).map digits = (ops'.flatMap exportedAngles).map digits →
    (ops.flatMap exportedGates).map (NamedGate.map digits) = (ops'.flatMap exportedGates).map (NamedGate.map digits)
  | [], [], _, _, _, _ => rfl
  | op :: ops, op' :: ops', hshape, hops, hops', h => by
    obtain ⟨hhead, htail⟩ := List.cons.inj hshape
    obtain ⟨hlabel, hqubits⟩ := Prod.mk.inj hhead
    rw [List.flatMap_cons, List.flatMap_cons, List.map_append, List.map_append] at h ⊢
    have hlen : ((exportedAngles op).map digits).length = ((exportedAngles op').map digits).length := by
      rw [List.length_map, List.length_map, (hops op List.mem_cons_self).length,
        (hops' op' List.mem_cons_self).length, hlabel]
    obtain ⟨hfirst, hrest⟩ := List.append_inj h hlen
    rw [exportedGates_congr digits htail (fun o ho => hops o (List.mem_cons_of_mem _ ho))
      (fun o ho => hops' o (List.mem_cons_of_mem _ ho)) hrest, exportedGates, exportedGates,
      map_gatesFor, map_gatesFor, hfirst, hlabel, hqubits]

end Export

/-! ### The literals of a program -/

theorem intercalate_empty (s : String) (l : List String) : "".intercalate (s :: l) = s ++ "".intercalate l := by
  cases l with
  | nil => rw [String.intercalate_singleton, String.intercalate_nil, String.append_empty]
  | cons t l => rw [String.intercalate_cons_cons, String.append_empty]

theorem literals_statements : ∀ {program : List (Qasm Double)}, (∀ s ∈ program, s.Regular) →
    literalsOf ("".intercalate (program.map (Qasm.text printDouble))) =
      (program.flatMap Qasm.angles).map printDouble
  | [], _ => rfl
  | s :: program, h => by
    rw [List.map_cons, intercalate_empty, literalsOf, String.toList_append,
      literals_text (h s List.mem_cons_self), List.flatMap_cons, List.map_append]
    exact congrArg _ (literals_statements fun t ht => h t (List.mem_cons_of_mem _ ht))

section Programs

variable {n : ℕ} {measured : List ℕ}

/-- **The literals of a program are its exported angles.** -/
theorem literals_program {ops : List (GateOp Double)} {text : String}
    (h : toQasm2 printDouble n ops measured = .ok text) :
    literalsOf text = (ops.flatMap exportedAngles).map printDouble := by
  obtain ⟨program, hprogram, htext⟩ := bind_eq_ok.mp h
  obtain rfl := Except.ok.inj htext
  obtain ⟨hops, rfl⟩ := qasmProgram_exported hprogram
  have hregular : ∀ g ∈ ops.flatMap exportedGates, Plain g.name ∧ g.angles.length ≤ 1 := fun g hg => by
    obtain ⟨op, hop, hg⟩ := List.mem_flatMap.mp hg
    exact (hops op hop).regular g hg
  have hangles : (ops.flatMap exportedGates).flatMap NamedGate.angles = ops.flatMap exportedAngles := by
    rw [List.flatMap_assoc]
    exact List.flatMap_congr fun op hop => (hops op hop).angles
  rw [literals_statements]
  · simp [Qasm.angles, List.flatMap_append, List.flatMap_map, hangles]
  · intro s hs
    rcases List.mem_append.mp hs with hs | hs
    · rcases List.mem_append.mp hs with hs | hs
      · have hheader : ∀ t ∈ ([.openqasm "3.0", .includeFile "qelib1.inc", .qreg n, .creg measured.length] :
            List (Qasm Double)), t.Regular := by
          simp only [List.forall_mem_cons, Qasm.Regular, List.not_mem_nil, false_imp_iff, implies_true, and_true]
          decide
        exact hheader s hs
      · obtain ⟨g, hg, rfl⟩ := List.mem_map.mp hs
        exact hregular g hg
    · obtain ⟨m, -, rfl⟩ := List.mem_map.mp hs
      trivial

/-- Whether two programs of the same labels and qubits are the same. -/
theorem toQasm2_eq_iff {ops ops' : List (GateOp Double)} {text text' : String}
    (hshape : ops.map (fun op => (op.label, op.qubits)) = ops'.map fun op => (op.label, op.qubits))
    (h : toQasm2 printDouble n ops measured = .ok text) (h' : toQasm2 printDouble n ops' measured = .ok text') :
    text = text' ↔ (ops.flatMap exportedAngles).map printDouble = (ops'.flatMap exportedAngles).map printDouble := by
  constructor
  · rintro rfl
    rw [← literals_program h, ← literals_program h']
  · intro hangles
    obtain ⟨program, hprogram, htext⟩ := bind_eq_ok.mp h
    obtain ⟨program', hprogram', htext'⟩ := bind_eq_ok.mp h'
    obtain ⟨hops, rfl⟩ := qasmProgram_exported hprogram
    obtain ⟨hops', rfl⟩ := qasmProgram_exported hprogram'
    have hgates := exportedGates_congr printDouble hshape hops hops' hangles
    have htexts : ∀ gates : List (NamedGate Double), (gates.map Qasm.gate).map (Qasm.text printDouble) =
        (gates.map (NamedGate.map printDouble)).map fun g => (Qasm.gate g).text id := fun gates => by
      rw [List.map_map, List.map_map]
      exact List.map_congr_left fun g _ => Qasm.text_gate printDouble g
    rw [← Except.ok.inj htext, ← Except.ok.inj htext']
    simp only [List.map_append]
    rw [htexts, htexts, hgates]

end Programs

/-- Two doubles with one sign that round to one number of six digits. -/
def Double.Alike (a b : Double) : Prop :=
  a.negative = b.negative ∧ sixDigits.round a.magnitude = sixDigits.round b.magnitude

theorem map_printDouble_eq_iff (as bs : List Double) :
    as.map printDouble = bs.map printDouble ↔ List.Forall₂ Double.Alike as bs := by
  rw [← List.forall₂_eq_eq_eq, List.forall₂_map_left_iff, List.forall₂_map_right_iff]
  simp only [printDouble_eq_iff]
  rfl

/-- Binding changes no label and no qubit. -/
theorem Circuit.bind_labels {R : Type} [Zero R] [Add R] [Mul R] {c bound : Circuit R} {theta : List R} {shift : R}
    (h : c.bind theta (-1) shift = .ok bound) : bound.numQubits = c.numQubits ∧
      bound.ops.map (fun op => (op.label, op.qubits)) = c.ops.map fun op => (op.label, op.qubits) := by
  unfold Circuit.bind at h
  split at h
  · cases h
  · obtain rfl := Except.ok.inj h
    exact ⟨rfl, List.map_map⟩

/-- **When angles survive export.** The literals of a program read back as the
exported angles if each of these is nearest to a number of six digits. Two
programs of the same labels and qubits differ if some angle differs in its sign
or in its rounding to six digits, and only then; so do the two programs of a
finite difference. All angles are finite: no operation on doubles overflows. -/
theorem exportedAngles_survive_iff {n : ℕ} {measured : List ℕ} {ops ops' : List (GateOp Double)}
    {text text' : String}
    (hshape : ops.map (fun op => (op.label, op.qubits)) = ops'.map fun op => (op.label, op.qubits))
    (h : toQasm2 printDouble n ops measured = .ok text)
    (h' : toQasm2 printDouble n ops' measured = .ok text') :
    ((literalsOf text).map strtod = (ops.flatMap exportedAngles).map some ↔
      ∀ a ∈ ops.flatMap exportedAngles, a.SixDigits) ∧
    ((ops.map GateOp.params ≠ ops'.map GateOp.params → text ≠ text') ↔
      ops.map GateOp.params = ops'.map GateOp.params ∨
        ¬List.Forall₂ Double.Alike (ops.flatMap exportedAngles) (ops'.flatMap exportedAngles)) ∧
    ∀ {c plus minus : Circuit Double} {theta : List Double} {i : ℕ} {fdEpsilon : Double}
      {textPlus textMinus : String},
      c.bind (theta.modify i (· + fdEpsilon)) (-1) 0 = .ok plus →
      c.bind (theta.modify i (· - fdEpsilon)) (-1) 0 = .ok minus →
      toQasm2 printDouble plus.numQubits plus.ops measured = .ok textPlus →
      toQasm2 printDouble minus.numQubits minus.ops measured = .ok textMinus →
      (textPlus ≠ textMinus ↔
        ¬List.Forall₂ Double.Alike (plus.ops.flatMap exportedAngles) (minus.ops.flatMap exportedAngles)) := by
  refine ⟨?_, ?_, fun {c plus minus theta i fdEpsilon _ _} hplus hminus hp hm => ?_⟩
  · rw [literals_program h, List.map_map, List.map_inj_left]
    exact forall₂_congr fun a _ => strtod_printDouble_iff a
  · rw [ne_eq text, toQasm2_eq_iff hshape h h', map_printDouble_eq_iff]
    tauto
  · obtain ⟨hn, hops⟩ := Circuit.bind_labels hplus
    obtain ⟨hn', hops'⟩ := Circuit.bind_labels hminus
    rw [hn] at hp
    rw [hn'] at hm
    rw [ne_eq, toQasm2_eq_iff (hops.trans hops'.symm) hp hm, map_printDouble_eq_iff]

/-- RX of a number. -/
def rxOp (angle : Double) : GateOp Double := GateCall.op (.rx 0 (.const angle))

theorem toQasm2_rxOp (angle : Double) : ∃ text, toQasm2 printDouble 1 [rxOp angle] [0] = .ok text :=
  (toQasm2_ok_iff printDouble 1 [.rx 0 (.const angle)] [0]).mpr (List.forall_mem_singleton.mpr nofun)

theorem exportedAngles_rxOp (angle : Double) : [rxOp angle].flatMap exportedAngles = [angle] := by
  rw [List.flatMap_cons, exportedAngles, rxOp, lower_label]
  rfl

theorem shape_rxOp (a b : Double) : [rxOp a].map (fun op => (op.label, op.qubits)) =
    [rxOp b].map fun op => (op.label, op.qubits) := rfl

/-- RX of 2 and RX of 1. -/
theorem exportedAngles_survive_rx :
    (∃ text, toQasm2 printDouble 1 [rxOp 2] [0] = .ok text ∧ (literalsOf text).map strtod = [some 2]) ∧
      ∃ text text', toQasm2 printDouble 1 [rxOp 2] [0] = .ok text ∧
        toQasm2 printDouble 1 [rxOp 1] [0] = .ok text' ∧ text ≠ text' := by
  obtain ⟨text, h⟩ := toQasm2_rxOp 2
  obtain ⟨text', h'⟩ := toQasm2_rxOp 1
  obtain ⟨hread, hdiffer, -⟩ := exportedAngles_survive_iff (shape_rxOp 2 1) h h'
  have hmem : ∀ m : ℕ, m < 10 ^ 6 → sixDigits.Mem (m : ℚ) := fun m hm => ⟨m, 0, hm, nofun, by simp⟩
  have htwo : sixDigits.Mem ((2 : ℕ) : ℚ) := hmem 2 (by decide)
  have hone : sixDigits.Mem ((1 : ℕ) : ℚ) := hmem 1 (by decide)
  refine ⟨⟨text, h, ?_⟩, text, text', h, h', ?_⟩
  · rw [exportedAngles_rxOp] at hread
    refine hread.mpr (List.forall_mem_singleton.mpr ⟨((2 : ℕ) : ℚ), htwo, ?_⟩)
    exact NumberFormat.round_of_mem (2 : Double).mem
  · rw [exportedAngles_rxOp, exportedAngles_rxOp] at hdiffer
    refine hdiffer.mpr (.inr fun halike => ?_) ?_
    · obtain ⟨-, hround⟩ := (List.forall₂_cons.mp halike).1
      have hround' : sixDigits.round ((2 : ℕ) : ℚ) = sixDigits.round ((1 : ℕ) : ℚ) := by
        rw [Nat.cast_one]
        exact hround
      rw [NumberFormat.round_of_mem htwo, NumberFormat.round_of_mem hone] at hround'
      norm_num at hround'
    · intro hparams
      have hmag : ((2 : ℕ) : ℚ) = 1 :=
        congrArg Double.magnitude (List.cons.inj (List.cons.inj hparams).1).1
      norm_num at hmag

/-- The double nearest to a third of π. -/
def thirdOfPi : Double := .scaled 4716158501352293 (-52) (by decide) (by decide) (by decide)

/-- The default of `fd_epsilon`, the double nearest to 1e-4. -/
def defaultEpsilon : Double := .scaled 7378697629483821 (-66) (by decide) (by decide) (by decide)

/-- 150, and the doubles that it becomes with the default step added and taken off. -/
def oneFifty : Double := .scaled 150 0 (by decide) (by decide) (by decide)
def oneFiftyPlus : Double := .scaled 5277659331762009 (-45) (by decide) (by decide) (by decide)
def oneFiftyMinus : Double := .scaled 5277652294887591 (-45) (by decide) (by decide) (by decide)

theorem nearest_defaultEpsilon : Double.nearest false (1 / 10000) = some defaultEpsilon := by
  have hround : binary64.round (1 / 10000 : ℚ) = defaultEpsilon.magnitude := by
    apply NumberFormat.round_eq (n := 7378697629483821)
    · decide
    · norm_num [binary64]
    · norm_num [binary64]
    · exact .inl (by norm_num [binary64, abs_lt])
  exact (Double.nearest_eq_some_iff (by norm_num)).mpr hround

theorem oneFifty_add : oneFifty + defaultEpsilon = oneFiftyPlus := by
  have hsum : oneFifty.value + defaultEpsilon.value = 150 + 7378697629483821 / 2 ^ 66 := by
    norm_num [oneFifty, defaultEpsilon, Double.scaled, Double.value]
  apply Double.add_eq
  · rw [hsum]
    norm_num
  · rfl
  · rw [hsum]
    apply NumberFormat.round_eq (n := 5277659331762009)
    · decide
    · norm_num [binary64]
    · norm_num [binary64]
    · exact .inl (by norm_num [binary64, abs_lt])

theorem oneFifty_sub : oneFifty - defaultEpsilon = oneFiftyMinus := by
  have hsum : oneFifty.value + (-defaultEpsilon).value = 150 - 7378697629483821 / 2 ^ 66 := by
    norm_num [oneFifty, defaultEpsilon, Double.scaled, Double.value]
  apply Double.add_eq
  · rw [hsum]
    norm_num
  · rfl
  · rw [hsum]
    apply NumberFormat.round_eq (n := 5277652294887591)
    · decide
    · norm_num [binary64]
    · norm_num [binary64]
    · exact .inl (by norm_num [binary64, abs_lt])

/-- Both are 150 to six digits. -/
theorem alike_oneFifty : Double.Alike oneFiftyPlus oneFiftyMinus := by
  have hround : ∀ a : Double, |a.magnitude * 1000 - 150000| < 1 / 2 →
      sixDigits.round a.magnitude = 150000 * ((10 : ℕ) : ℚ) ^ (-3 : ℤ) := by
    intro a ha
    obtain ⟨hlow, hhigh⟩ := abs_lt.mp ha
    apply NumberFormat.round_eq (n := 150000)
    · nofun
    · norm_num [sixDigits]
      linarith
    · norm_num [sixDigits]
      linarith
    · left
      rw [zpow_neg, div_inv_eq_mul]
      norm_num [sixDigits]
      linarith
  refine ⟨rfl, (hround _ ?_).trans (hround _ ?_).symm⟩
  · norm_num [oneFiftyPlus, Double.scaled, abs_lt]
  · norm_num [oneFiftyMinus, Double.scaled, abs_lt]

theorem round_thirdOfPi : sixDigits.round thirdOfPi.magnitude = 10472 / 10000 := by
  have hround : sixDigits.round thirdOfPi.magnitude = 104720 * ((10 : ℕ) : ℚ) ^ (-5 : ℤ) := by
    apply NumberFormat.round_eq (n := 104720)
    · nofun
    · norm_num [sixDigits, thirdOfPi, Double.scaled]
    · norm_num [sixDigits, thirdOfPi, Double.scaled]
    · exact .inl (by norm_num [sixDigits, thirdOfPi, Double.scaled, abs_lt])
  rw [hround]
  norm_num

theorem printDouble_thirdOfPi : printDouble thirdOfPi = "1.0472" := by
  have he : sixDigits.exponent (10472 / 10000 : ℚ) = -5 := by
    apply NumberFormat.exponent_eq
    · nofun
    · norm_num [sixDigits]
    · norm_num [sixDigits]
  have hlog : Int.log 10 (10472 / 10000 : ℚ) = 0 := by
    have h : Int.log 10 (10472 / 10000 : ℚ) - (5 : ℕ) = -5 := he
    omega
  have hdigits : ⌊(10472 / 10000 : ℚ) / sixDigits.ulp (10472 / 10000 : ℚ)⌋₊ = 104720 := by
    rw [NumberFormat.ulp, he]
    norm_num [sixDigits]
  rw [printDouble, round_thirdOfPi, hlog, hdigits]
  decide

/-- 1.0472 is nearest to another double. -/
theorem strtod_thirdOfPi_ne : strtod (printDouble thirdOfPi) ≠ some thirdOfPi := by
  have hround : binary64.round (10472 / 10000 : ℚ) = 4716169529782383 * ((2 : ℕ) : ℚ) ^ (-52 : ℤ) := by
    apply NumberFormat.round_eq (n := 4716169529782383)
    · decide
    · norm_num [binary64]
    · norm_num [binary64]
    · exact .inl (by norm_num [binary64, abs_lt])
  rw [strtod_printDouble, round_thirdOfPi, ne_eq, Double.nearest_eq_some_iff (by norm_num), hround]
  norm_num [thirdOfPi, Double.scaled]

/-- The angle of a third of π reads back as another number, and at 150 the two
circuits of a finite difference with the default step are one program. -/
theorem exportedAngles_lost :
    (∃ text, toQasm2 printDouble 1 [rxOp thirdOfPi] [0] = .ok text ∧ literalsOf text = ["1.0472"] ∧
      (literalsOf text).map strtod ≠ [some thirdOfPi]) ∧
    ∃ (theta fdEpsilon : Double) (plus minus : Circuit Double) (text : String),
      theta.value = 150 ∧ Double.nearest false (1 / 10000) = some fdEpsilon ∧
      (⟨1, 1, [GateCall.op (.rx 0 ⟨0, 1, 0⟩)], []⟩ : Circuit Double).bind
        ([theta].modify 0 (· + fdEpsilon)) (-1) 0 = .ok plus ∧
      (⟨1, 1, [GateCall.op (.rx 0 ⟨0, 1, 0⟩)], []⟩ : Circuit Double).bind
        ([theta].modify 0 (· - fdEpsilon)) (-1) 0 = .ok minus ∧
      plus.ops.map GateOp.params ≠ minus.ops.map GateOp.params ∧
      toQasm2 printDouble plus.numQubits plus.ops [0] = .ok text ∧
      toQasm2 printDouble minus.numQubits minus.ops [0] = .ok text := by
  refine ⟨?_, ?_⟩
  · obtain ⟨text, h⟩ := toQasm2_rxOp thirdOfPi
    have hliterals : literalsOf text = [printDouble thirdOfPi] := by
      rw [literals_program h, exportedAngles_rxOp]
      rfl
    refine ⟨text, h, hliterals.trans (by rw [printDouble_thirdOfPi]), fun hread => ?_⟩
    rw [hliterals] at hread
    exact strtod_thirdOfPi_ne (List.cons.inj hread).1
  · have hbind : ∀ angle : Double, 0 < angle.magnitude → angle.negative = false →
        (⟨1, 1, [GateCall.op (.rx 0 ⟨0, 1, 0⟩)], []⟩ : Circuit Double).bind [angle] (-1) 0 =
          .ok ⟨1, 0, [rxOp angle], []⟩ := fun angle hpos hsign => by
      have hangle : 1 * angle + 0 = angle := by
        have hvalue : angle.value + (0 : Double).value = angle.magnitude := by
          rw [Double.value, hsign]
          exact add_zero _
        rw [Double.one_mul_double]
        exact Double.add_eq (by rwa [hvalue]) hsign (by rw [hvalue, NumberFormat.round_of_mem angle.mem])
      conv_rhs => rw [← hangle]
      rfl
    obtain ⟨text, h⟩ := toQasm2_rxOp oneFiftyPlus
    obtain ⟨text', h'⟩ := toQasm2_rxOp oneFiftyMinus
    have htext : text = text' := by
      rw [toQasm2_eq_iff (shape_rxOp _ _) h h', map_printDouble_eq_iff, exportedAngles_rxOp, exportedAngles_rxOp]
      exact .cons alike_oneFifty .nil
    refine ⟨oneFifty, defaultEpsilon, _, _, text, ?_, nearest_defaultEpsilon,
      (congrArg (fun a => Circuit.bind _ [a] (-1) 0) oneFifty_add).trans (hbind oneFiftyPlus ?_ rfl),
      (congrArg (fun a => Circuit.bind _ [a] (-1) 0) oneFifty_sub).trans (hbind oneFiftyMinus ?_ rfl),
      fun hparams => ?_, h, htext ▸ h'⟩
    · norm_num [oneFifty, Double.scaled, Double.value]
    · norm_num [oneFiftyPlus, Double.scaled]
    · norm_num [oneFiftyMinus, Double.scaled]
    · have hmag : oneFiftyPlus.magnitude = oneFiftyMinus.magnitude :=
        congrArg Double.magnitude (List.cons.inj (List.cons.inj hparams).1).1
      norm_num [oneFiftyPlus, oneFiftyMinus, Double.scaled] at hmag

end Qsycl
