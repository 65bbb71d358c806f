import FlowBasic.Proofs.Standalone

namespace FlowBasic

namespace Report

theorem mem_errors {r : Report} {f : Finding} : f ∈ r.errors ↔ f ∈ r.findings ∧ f.severity = .error := by
  simp [errors, Finding.isError]

theorem valid_iff_errors (r : Report) : r.valid = true ↔ r.errors = [] := by
  simp [valid, errors]

theorem not_valid_iff (r : Report) : r.valid = false ↔ ∃ f ∈ r.findings, f.severity = .error := by
  simp [valid, Finding.isError]

/-- The errors of a table are those of its routines, one routine after the other. -/
theorem errors_ofRoutines (rs : Table Routine) :
    (ofRoutines rs).errors = rs.entries.flatMap fun e => (e.2.report (some rs) e.1).errors := by
  rw [errors, ofRoutines, List.filter_flatMap]
  rfl

end Report

/-- A report as it grows: whether everything so far is valid, and apart from that what was found. -/
structure Verdict where
  valid : Bool
  findings : List Finding
deriving DecidableEq

namespace Verdict

def clear : Verdict := ⟨true, []⟩

/-- One routine's report more. -/
def add (v : Verdict) (r : Report) : Verdict := ⟨v.valid && r.valid, v.findings ++ r.findings⟩

/-- The routines of a table are looked at one after the other. -/
def ofRoutines (rs : Table Routine) : Verdict :=
  rs.entries.foldl (fun v e => v.add (e.2.report (some rs) e.1)) clear

/-- The verdict fits the findings. -/
def Faithful (v : Verdict) : Prop := v.valid = (Report.mk v.findings).valid

theorem faithful_clear : clear.Faithful := rfl

theorem Faithful.add {v : Verdict} (h : v.Faithful) (r : Report) : (v.add r).Faithful := by
  have hfindings : (Report.mk (v.findings ++ r.findings)).valid =
      ((Report.mk v.findings).valid && r.valid) := by
    simp only [Report.valid, List.any_append, Bool.not_or]
  rw [Faithful, Verdict.add, hfindings, h]

theorem Faithful.foldl {v : Verdict} (h : v.Faithful) (reportOf : String × Routine → Report)
    (es : List (String × Routine)) : (es.foldl (fun v e => v.add (reportOf e)) v).Faithful := by
  induction es generalizing v with
  | nil => exact h
  | cons e es ih => exact ih (h.add (reportOf e))

theorem findings_foldl (v : Verdict) (reportOf : String × Routine → Report)
    (es : List (String × Routine)) :
    (es.foldl (fun v e => v.add (reportOf e)) v).findings =
      v.findings ++ es.flatMap fun e => (reportOf e).findings := by
  induction es generalizing v with
  | nil => simp
  | cons e es ih => rw [List.foldl_cons, ih, List.flatMap_cons, add, List.append_assoc]

/-- Grown routine by routine, the report has the findings of the whole table and its verdict. -/
theorem ofRoutines_eq (rs : Table Routine) :
    ofRoutines rs = ⟨(Report.ofRoutines rs).valid, (Report.ofRoutines rs).findings⟩ := by
  have hfindings : (ofRoutines rs).findings = (Report.ofRoutines rs).findings := by
    rw [ofRoutines, findings_foldl]
    rfl
  have hvalid : (ofRoutines rs).valid = (Report.mk (ofRoutines rs).findings).valid :=
    faithful_clear.foldl _ rs.entries
  rw [hfindings] at hvalid
  exact congrArg₂ Verdict.mk hvalid hfindings

end Verdict

/-- What a table compiles to when nothing is refused. -/
def Options.compiled (o : Options) (rs : Table Routine) : Compiled :=
  ⟨.assemble (Program.partsOf rs o.firstLine.toNat) o.separator, .ofRoutines rs⟩

/-- Only an invalid report is refused, and only where it has to be valid. -/
theorem compileRoutines_eq (o : Options) (rs : Table Routine) :
    compileRoutines o rs =
      if (Verdict.ofRoutines rs).valid then .ok (o.compiled rs)
      else if o.requireValid then .error ⟨(Report.ofRoutines rs).errors⟩
      else .ok (o.compiled rs) := by
  have hvalid : (Verdict.ofRoutines rs).valid = (Report.ofRoutines rs).valid := by
    rw [Verdict.ofRoutines_eq]
  rw [compileRoutines, Options.accept, hvalid]
  cases (Report.ofRoutines rs).valid <;> cases o.requireValid <;> rfl

theorem compileRoutines_eq_error_iff {o : Options} {rs : Table Routine} {x : InvalidGraph} :
    compileRoutines o rs = .error x ↔ (o.requireValid = true ∧ (Report.ofRoutines rs).valid = false) ∧
      x = ⟨(Report.ofRoutines rs).errors⟩ := by
  rw [compileRoutines_eq, Verdict.ofRoutines_eq]
  cases (Report.ofRoutines rs).valid <;> cases o.requireValid <;> simp [eq_comm]

theorem compiled_of_compileRoutines {o : Options} {rs : Table Routine} {c : Compiled}
    (h : compileRoutines o rs = .ok c) : c = o.compiled rs := by
  rw [compileRoutines_eq] at h
  split at h
  · exact (Except.ok.inj h).symm
  · split at h
    · cases h
    · exact (Except.ok.inj h).symm

theorem not_valid_ofRoutines_iff (rs : Table Routine) :
    (Report.ofRoutines rs).valid = false ↔
      ∃ e ∈ rs.entries, ∃ f ∈ (e.2.report (some rs) e.1).findings, f.severity = .error := by
  rw [Report.not_valid_iff]
  constructor
  · intro h
    obtain ⟨f, hf, herror⟩ := h
    obtain ⟨e, he, hf⟩ := List.mem_flatMap.mp hf
    exact ⟨e, he, f, hf, herror⟩
  · intro h
    obtain ⟨e, he, f, hf, herror⟩ := h
    exact ⟨f, List.mem_flatMap.mpr ⟨e, he, hf⟩, herror⟩

/-- A table is refused exactly when it has to be valid and one of its routines has an error. The refusal
shows the errors of all routines in order, at least one of them and no warning. Otherwise the report
comes out with the code of each routine, in order and with the separator in between. Lenient options
refuse nothing, and what passes the standard options is what they give. -/
theorem compileRoutines_gated (o : Options) (rs : Table Routine) :
    let reportOf : String × Routine → Report := fun e => e.2.report (some rs) e.1
    Verdict.ofRoutines rs = ⟨(Report.ofRoutines rs).valid, (Report.ofRoutines rs).findings⟩ ∧
    ((∃ x, compileRoutines o rs = .error x) ↔ o.requireValid = true ∧
      ∃ e ∈ rs.entries, ∃ f ∈ (reportOf e).findings, f.severity = .error) ∧
    (∀ x, compileRoutines o rs = .error x →
      x.errors = (rs.entries.flatMap fun e => (reportOf e).findings.filter (·.severity = .error)) ∧
      x.errors ≠ [] ∧ ∀ f ∈ x.errors, f.severity ≠ .warning) ∧
    (∀ c, compileRoutines o rs = .ok c →
      c.report = Report.ofRoutines rs ∧
      c.program.parts = rs.entries.map (fun e => e.2.generate (some rs) o.firstLine.toNat e.1) ∧
      c.program.code = String.intercalate o.separator (c.program.parts.map (·.code))) ∧
    ∃ c, compileRoutines .lenient rs = .ok c ∧ c.program = Program.ofRoutines rs ∧
      ∀ d, compileRoutines .standard rs = .ok d → d = c := by
  intro reportOf
  refine ⟨Verdict.ofRoutines_eq rs, ?_, ?_, ?_, ?_⟩
  · simp only [compileRoutines_eq_error_iff, exists_and_left, exists_eq, and_true,
      not_valid_ofRoutines_iff]
    rfl
  · intro x hx
    obtain ⟨⟨-, hinvalid⟩, rfl⟩ := compileRoutines_eq_error_iff.mp hx
    refine ⟨Report.errors_ofRoutines rs, ?_, ?_⟩
    · intro hnone
      rw [← Report.valid_iff_errors, hinvalid] at hnone
      exact Bool.false_ne_true hnone
    · intro f hf hwarning
      have herror := (Report.mem_errors.mp hf).2
      rw [herror] at hwarning
      cases hwarning
  · intro c hc
    obtain rfl := compiled_of_compileRoutines hc
    exact ⟨rfl, rfl, rfl⟩
  · have hlenient : compileRoutines .lenient rs = .ok (Options.lenient.compiled rs) := by
      rw [compileRoutines_eq]
      split <;> rfl
    refine ⟨_, hlenient, rfl, ?_⟩
    intro d hd
    obtain rfl := compiled_of_compileRoutines hd
    rfl

-- The loop of the first routine is a warning, which the refusal for the last one does not show.
example :
    let lost : Routine :=
      { Routine.fresh false with
        nodes := .ofList [(0, .start), (1, .ofPayload "End" (.returnLinked .uint64))] }
    let rs : Table Routine :=
      .ofList [("Loop", Routine.loopOverSum), ("Plain", .fresh false), ("Lost", lost)]
    (Report.ofRoutines rs).warnings = [⟨"Loop", some 2, none, .cycle⟩] ∧
      compileRoutines .standard rs = .error ⟨[⟨"Lost", some 1, some 1, .missingConnection⟩]⟩ := by
  decide +kernel

end FlowBasic
