import FlowBasic.Proofs.ProjectHistories

namespace FlowBasic

/-- The number of arguments that a callee takes, where it is known. -/
def Scope.arity? (s : Scope) (name : String) : Option Nat := (s.callee? name).map (·.args.size)

/-- A process node of the routine calls the routine of this name. -/
def Routine.Calls (r : Routine) (name : String) : Prop :=
  ∃ e ∈ r.nodes.entries, e.2.payload = .process name

namespace Site

/-- The same node at the same point of writing, with other callees known. -/
def withScope (s : Site) (t : Scope) : Site := { s with scope := t }

section OtherScope

variable (s : Site) (t : Scope)

theorem arguments_withScope (base : Nat) (literals : List (Option Literal)) :
    (s.withScope t).arguments base literals = s.arguments base literals := by
  induction literals generalizing base with
  | nil => rfl
  | cons literal literals ih =>
    rw [arguments, arguments, ih]
    rfl

theorem missingFrom_withScope (base : Nat) (literals : List (Option Literal)) :
    (s.withScope t).missingFrom base literals = s.missingFrom base literals := by
  induction literals generalizing base with
  | nil => rfl
  | cons literal literals ih =>
    rw [missingFrom, missingFrom, ih]
    rfl

/-- A call reads of its callee how many arguments it takes. -/
theorem process_withScope {name : String} (h : t.arity? name = s.scope.arity? name) :
    (s.withScope t).process name = s.process name := by
  have hscope : (s.withScope t).scope = t := rfl
  have hloose : (s.withScope t).looseArguments = s.looseArguments := rfl
  have houtgoing : (s.withScope t).outgoing = s.outgoing := rfl
  simp only [Scope.arity?] at h
  simp only [process, hscope, hloose, houtgoing, arguments_withScope, missingFrom_withScope]
  cases hs : s.scope.callee? name <;> cases ht : t.callee? name <;>
    simp only [hs, ht, Option.map_none, Option.map_some, Option.some.injEq, reduceCtorEq] at h
  · rfl
  · simp only [Option.map_some, h]
    rfl

/-- Every other node contributes the same whatever callees are known. -/
theorem synthesize_withScope {p : Payload}
    (h : ∀ name, p = .process name → t.arity? name = s.scope.arity? name) :
    (s.withScope t).synthesize p = s.synthesize p := by
  cases p with
  | process name => exact s.process_withScope t (h name rfl)
  | call c => simp only [synthesize, call, arguments_withScope, missingFrom_withScope]
  | _ => rfl

end OtherScope

end Site

namespace Routine

theorem calls_of_get? {r : Routine} {id : NodeId} {n : Node} {name : String}
    (hn : r.nodes.get? id = some n) (hp : n.payload = .process name) : r.Calls name :=
  ⟨(id, n), r.nodes.mem_entries_iff.mpr hn, hp⟩

/-- Two scopes in which the callees of a routine take equally many arguments. -/
def SameArities (r : Routine) (s t : Scope) : Prop :=
  ∀ callee, r.Calls callee → s.arity? callee = t.arity? callee

theorem contributions_congr {r : Routine} {s t : Scope} (h : r.SameArities s t) (offers : Offers)
    (ids : List NodeId) : r.contributions s offers ids = r.contributions t offers ids := by
  induction ids generalizing offers with
  | nil => rfl
  | cons id ids ih =>
    cases hn : r.nodes.get? id with
    | none =>
      simp only [contributions, hn]
      exact ih offers
    | some n =>
      have hsite : Site.synthesize ⟨id, r, s, offers⟩ n.payload =
          Site.synthesize ⟨id, r, t, offers⟩ n.payload := by
        apply Site.synthesize_withScope ⟨id, r, t, offers⟩ s
        intro callee hcallee
        exact h callee (calls_of_get? hn hcallee)
      rw [contributions_cons hn, contributions_cons hn, hsite]
      simp only [ih]

theorem generate_congr {r : Routine} {s t : Scope} (h : r.SameArities s t) (firstLine : Nat)
    (name : String) : r.generate s firstLine name = r.generate t firstLine name := by
  have hcontributions := contributions_congr h [] r.traversal.order
  simp only [generate, listing_draft, blocks, diagnostics_draft, hcontributions]

theorem redirect_of_not_calls {r : Routine} {old : String} (h : ¬ r.Calls old) (new : String) :
    r.redirect old new = r := by
  have hnodes : (r.nodes.map fun n => { n with payload := n.payload.redirect old new }) = r.nodes := by
    apply NodeMap.ext
    refine (List.map_congr_left ?_).trans (List.map_id _)
    intro e he
    have hother : e.2.payload.callee? ≠ some old := by
      intro hcallee
      exact h ⟨e, he, Payload.callee?_eq_some.mp hcallee⟩
    simp only [Payload.redirect, if_neg hother, id_eq]
  rw [redirect_eq, hnodes]

end Routine

namespace Program

/-- The part of a program that is a routine's own. -/
def part? (p : Program) (name : String) : Option RoutineCode := p.parts.find? (·.name = name)

theorem find?_map_name (f : String × Routine → RoutineCode) (hf : ∀ e, (f e).name = e.1)
    (es : List (String × Routine)) (name : String) :
    (es.map f).find? (·.name = name) = (es.lookup name).map fun r => f (name, r) := by
  induction es with
  | nil => rfl
  | cons e es ih =>
    rw [List.map_cons, List.find?_cons, Entries.lookup_cons, ih, hf]
    by_cases he : e.1 = name
    · subst he
      simp
    · have he' : ¬ name = e.1 := fun heq => he heq.symm
      simp [he, he']

theorem part?_ofRoutines (rs : Table Routine) (name : String) :
    (ofRoutines rs).part? name = (rs.get? name).map fun r => r.generate (some rs) 1 name :=
  find?_map_name (fun e => e.2.generate (some rs) 1 e.1) (fun _ => rfl) rs.entries name

end Program

theorem Table.get?_foldl_insert {α : Type} {new : List (String × α)} {x : String}
    (hx : x ∉ new.map Prod.fst) (t : Table α) :
    (new.foldl (fun t e => t.insert e.1 e.2) t).get? x = t.get? x := by
  induction new generalizing t with
  | nil => rfl
  | cons e new ih =>
    rw [List.map_cons, List.mem_cons, not_or] at hx
    rw [List.foldl_cons, ih hx.2, Table.get?_insert, if_neg hx.1]

namespace Project

theorem get?_merge {p other : Project} {overwrite : Bool} {x : String} (hx : x ∉ other.routines.keys) :
    (p.merge other overwrite).1.routines.get? x = p.routines.get? x := by
  apply Table.get?_foldl_insert
  intro hmem
  exact hx ((List.filter_sublist.map Prod.fst).mem hmem)

/-- A routine is what it was, and its callees take as many arguments as before. -/
structure Untouched (p q : Project) (name : String) (r : Routine) : Prop where
  routine : q.routines.get? name = some r
  arities : r.SameArities q.scope p.scope

variable {p q : Project} {name : String} {r : Routine}

/-- Where other names are looked up as before, nothing has happened to the routine. -/
theorem untouched_of_get? (hr : p.routines.get? name = some r) {e : ProjectEdit}
    (he : ∀ g ∈ e.subjects, g ≠ name ∧ ¬ r.Calls g)
    (h : ∀ x, x ∉ e.subjects → q.routines.get? x = p.routines.get? x) : p.Untouched q name r where
  routine := by
    rw [h name fun hmem => (he name hmem).1 rfl, hr]
  arities := by
    intro callee hcallee
    have hget := h callee fun hmem => (he callee hmem).2 hcallee
    simp only [Scope.arity?, Scope.callee?, scope, Option.bind_some, hget]

theorem untouched_of_renamed (hr : p.routines.get? name = some r) {old new : String} {r' : Routine}
    (h : p.Renamed q old new r') (hold : old ≠ name ∧ ¬ r.Calls old) (hnew : new ≠ name ∧ ¬ r.Calls new) :
    p.Untouched q name r where
  routine := by
    have hget := h.get?_eq hnew.1.symm
    rw [RoutineName.replace, if_neg hold.1.symm, hr, Option.map_some,
      Routine.redirect_of_not_calls hold.2] at hget
    exact hget
  arities := by
    intro callee hcallee
    have hne : callee ≠ new := fun heq => hnew.2 (heq ▸ hcallee)
    have hne' : callee ≠ old := fun heq => hold.2 (heq ▸ hcallee)
    have hget := h.get?_eq hne
    rw [RoutineName.replace, if_neg hne'] at hget
    simp only [Scope.arity?, Scope.callee?, scope, Option.bind_some, hget, Option.map_map]
    rfl

/-- An edit of routines that a routine neither is nor calls does not touch it. -/
theorem Step.untouched {e : ProjectEdit} (h : p.Step e q) (hr : p.routines.get? name = some r)
    (he : ∀ g ∈ e.subjects, g ≠ name ∧ ¬ r.Calls g) : p.Untouched q name r := by
  cases h with
  | refused => exact ⟨hr, fun _ _ => rfl⟩
  | added hname _ =>
    apply untouched_of_get? hr he
    intro x hx
    have hnew := RoutineName.normalize?_trimmed_of_normalize hname
    simp only [ProjectEdit.subjects, hnew, Option.toList_some, List.mem_singleton] at hx
    rw [setRoutine, Table.get?_insert, if_neg hx]
  | renamed h hname =>
    have hnew := RoutineName.normalize?_trimmed_of_normalize hname
    apply untouched_of_renamed hr h (he _ List.mem_cons_self)
    apply he
    refine List.mem_cons_of_mem _ (List.mem_filterMap.mpr ⟨_, ?_, hnew⟩)
    simp
  | deleted _ =>
    apply untouched_of_get? hr he
    intro x hx
    simp only [ProjectEdit.subjects, List.mem_singleton] at hx
    rw [Table.get?_erase, if_neg hx]
  | changed hsubject _ _ =>
    apply untouched_of_get? hr he
    intro x hx
    have hne : x ≠ _ := fun heq => hx (heq ▸ hsubject)
    rw [setRoutine, Table.get?_insert, if_neg hne]
  | merged other overwrite =>
    apply untouched_of_get? hr he
    intro x hx
    exact get?_merge hx

theorem Untouched.trans {p' : Project} (h : p.Untouched q name r) (h' : q.Untouched p' name r) :
    p.Untouched p' name r :=
  ⟨h'.routine, fun callee hcallee => (h'.arities callee hcallee).trans (h.arities callee hcallee)⟩

theorem untouched_run (hr : p.routines.get? name = some r) {es : List ProjectEdit}
    (hes : ∀ e ∈ es, ∀ g ∈ e.subjects, g ≠ name ∧ ¬ r.Calls g) : p.Untouched (p.run es) name r := by
  induction es generalizing p with
  | nil => exact ⟨hr, fun _ _ => rfl⟩
  | cons e es ih =>
    have hstep := (p.step_applyD e).untouched hr (hes e List.mem_cons_self)
    exact hstep.trans (ih hstep.routine fun f hf => hes f (List.mem_cons_of_mem e hf))

end Project

namespace Routine

/-- A routine has the same code and diagnostics in any two scopes in which its callees are unknown alike
or take equally many arguments. So no history of edits to other routines that it does not call changes
its part of the program. -/
theorem generate_by_arities (r : Routine) (name : String) :
    (∀ (s t : Scope) (firstLine : Nat),
      (∀ callee, r.Calls callee → s.arity? callee = t.arity? callee) →
        r.generate s firstLine name = r.generate t firstLine name) ∧
    ∀ (p : Project) (es : List ProjectEdit), p.routines.get? name = some r →
      (∀ e ∈ es, ∀ g ∈ e.subjects, g ≠ name ∧ ¬ r.Calls g) →
        ∃ code, (Program.ofRoutines p.routines).part? name = some code ∧
          (Program.ofRoutines (p.run es).routines).part? name = some code := by
  refine ⟨fun s t firstLine h => generate_congr h firstLine name, ?_⟩
  intro p es hr hes
  have hafter := Project.untouched_run hr hes
  refine ⟨r.generate p.scope 1 name, ?_, ?_⟩
  · rw [Program.part?_ofRoutines, hr]
    rfl
  · rw [Program.part?_ofRoutines, hafter.routine, Option.map_some]
    exact congrArg some (generate_congr hafter.arities 1 name)

end Routine

end FlowBasic
