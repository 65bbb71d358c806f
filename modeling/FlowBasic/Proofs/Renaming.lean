import FlowBasic.Proofs.Outline
import FlowBasic.Proofs.StructuralEdits

namespace FlowBasic

/-- The name that a routine has after one of them is renamed. -/
def RoutineName.replace (old new name : String) : String := if name = old then new else name

namespace RoutineName

theorem replace_injective {old new a b : String} (ha : a ≠ new) (hb : b ≠ new) :
    replace old new a = replace old new b ↔ a = b := by
  simp only [replace]
  split <;> split <;> simp_all [eq_comm]

theorem replace_ne {old new name : String} (hne : new ≠ old) : replace old new name ≠ old := by
  simp only [replace]
  split <;> assumption

theorem replace_replace {old new name : String} (h : name ≠ new) :
    replace new old (replace old new name) = name := by
  simp only [replace]
  split <;> simp_all

end RoutineName

namespace Entries

variable {α β : Type}

theorem rename_eq_map {old new : String} {es : List (String × α)} (h : (es.map Prod.fst).Nodup) :
    rename old new es = es.map fun e => (RoutineName.replace old new e.1, e.2) := by
  induction es with
  | nil => rfl
  | cons e es ih =>
    simp only [List.map_cons, List.nodup_cons] at h
    by_cases he : e.1 = old
    · have hrest : es.map (fun e => (RoutineName.replace old new e.1, e.2)) = es := by
        refine (List.map_congr_left ?_).trans (List.map_id es)
        intro f hf
        have hne : f.1 ≠ old := fun heq => h.1 (he ▸ heq ▸ List.mem_map_of_mem hf)
        simp [RoutineName.replace, hne]
      rw [rename, if_pos he, List.map_cons, hrest, RoutineName.replace, if_pos he]
    · rw [rename, if_neg he, List.map_cons, ih h.2, RoutineName.replace, if_neg he]

theorem lookup_map_replace {old new x : String} {es : List (String × α)} (f : α → β)
    (hfresh : new ∉ es.map Prod.fst) (hx : x ≠ new) :
    (es.map fun e => (RoutineName.replace old new e.1, f e.2)).lookup
      (RoutineName.replace old new x) = (es.lookup x).map f := by
  induction es with
  | nil => rfl
  | cons e es ih =>
    simp only [List.map_cons, List.mem_cons, not_or] at hfresh
    have hne : e.1 ≠ new := fun heq => hfresh.1 heq.symm
    rw [List.map_cons, lookup_cons, lookup_cons, ih hfresh.2]
    simp only [RoutineName.replace_injective hx hne]
    split <;> rfl

end Entries

namespace Table

variable {α β : Type}

theorem entries_rename {t : Table α} {old new : String} (hfresh : new ∉ t.keys) :
    (t.rename old new).entries = t.entries.map fun e => (RoutineName.replace old new e.1, e.2) := by
  rw [rename, dif_pos hfresh]
  exact Entries.rename_eq_map t.nodup

end Table

namespace Payload

/-- Turns a call of one routine into a call of another. -/
def redirect (old new : String) (p : Payload) : Payload :=
  if p.callee? = some old then .process new else p

theorem callee?_eq_some {p : Payload} {name : String} : p.callee? = some name ↔ p = .process name := by
  cases p <;> simp [callee?]

theorem redirect_process (old new name : String) :
    redirect old new (.process name) = .process (RoutineName.replace old new name) := by
  simp only [redirect, callee?, RoutineName.replace, Option.some.injEq]
  split <;> rfl

theorem redirect_of_callee?_eq_none {old new : String} {p : Payload} (h : p.callee? = none) :
    p.redirect old new = p := by
  simp [redirect, h]

theorem redirect_redirect {old new : String} {p : Payload} (h : p.callee? ≠ some new) :
    (p.redirect old new).redirect new old = p := by
  by_cases hold : p.callee? = some old
  · simp [redirect, callee?, callee?_eq_some.mp hold]
  · simp [redirect, hold, h]

/-- Only calls are redirected. -/
theorem redirect_eq_start {old new : String} {p : Payload} : p.redirect old new = .start ↔ p = .start := by
  cases p <;> simp [redirect, callee?]
  split <;> simp

end Payload

namespace Routine

theorem redirect_eq (old new : String) (r : Routine) :
    r.redirect old new =
      { r with nodes := r.nodes.map fun n => { n with payload := n.payload.redirect old new } } := by
  have hnode : (fun n : Node =>
      if n.payload.callee? = some old then { n with payload := .process new } else n) =
      fun n => { n with payload := n.payload.redirect old new } := by
    funext n
    simp only [Payload.redirect]
    split <;> rfl
  rw [redirect, hnode]

theorem entries_redirect (old new : String) (r : Routine) :
    (r.redirect old new).nodes.entries = r.nodes.entries.map fun e =>
      (e.1, { e.2 with payload := e.2.payload.redirect old new }) := by
  rw [redirect_eq]
  rfl

theorem get?_redirect (old new : String) (r : Routine) (id : NodeId) :
    (r.redirect old new).nodes.get? id =
      (r.nodes.get? id).map fun n => { n with payload := n.payload.redirect old new } := by
  rw [redirect_eq]
  exact NodeMap.get?_map _ _ _

theorem callSites_eq_nil_iff {r : Routine} {name : String} :
    r.callSites name = [] ↔ ∀ id n, r.nodes.get? id = some n → n.payload.callee? ≠ some name := by
  simp only [callSites, List.map_eq_nil_iff, List.filter_eq_nil_iff, decide_eq_true_eq]
  constructor
  · intro h id n hn
    exact h (id, n) (r.nodes.mem_entries_iff.mpr hn)
  · intro h e he
    exact h e.1 e.2 (r.nodes.mem_entries_iff.mp he)

/-- Calls that are redirected to a name without calls come back with it. -/
theorem redirect_redirect {old new : String} {r : Routine} (h : r.callSites new = []) :
    (r.redirect old new).redirect new old = r := by
  have hnodes : (r.nodes.map fun n => { n with payload := n.payload.redirect old new }).map
      (fun n => { n with payload := n.payload.redirect new old }) = r.nodes := by
    apply NodeMap.ext
    simp only [NodeMap.map, List.map_map]
    refine (List.map_congr_left ?_).trans (List.map_id _)
    intro e he
    have hfree := callSites_eq_nil_iff.mp h e.1 e.2 (r.nodes.mem_entries_iff.mp he)
    simp only [Function.comp_apply, Payload.redirect_redirect hfree, id_eq]
  rw [redirect_eq, redirect_eq, hnodes]

end Routine

/-- The second scope tells of a redirected call what the first tells of the call. -/
structure Scope.Redirected (s t : Scope) (old new : String) : Prop where
  known : t.isSome = s.isSome
  target : s.isSome = true → (s.callee? old).isSome = true
  callee : ∀ name, name ≠ new →
    (t.callee? (RoutineName.replace old new name)).map (fun r => (r.args, r.returns)) =
      (s.callee? name).map fun r => (r.args, r.returns)

theorem Scope.redirected_none (old new : String) : Scope.Redirected none none old new :=
  ⟨rfl, fun h => absurd h (by decide), fun _ _ => rfl⟩

namespace Routine

section Redirected

variable {r : Routine} {s t : Scope} {old new : String}

theorem layout_redirect (h : s.Redirected t old new) {p : Payload} (hp : p.callee? ≠ some new) :
    (r.redirect old new).layout t (p.redirect old new) = r.layout s p := by
  cases p with
  | process name =>
    have hne : name ≠ new := fun heq => hp (congrArg some heq)
    have hcallee := h.callee name hne
    rw [Payload.redirect_process]
    cases hs : s.callee? name <;>
      cases ht : t.callee? (RoutineName.replace old new name) <;> simp_all [layout]
  | ending e => cases e <;> rfl
  | _ => rfl

theorem contains_redirect (id : NodeId) : (r.redirect old new).nodes.contains id = r.nodes.contains id := by
  simp [NodeMap.contains, get?_redirect]

theorem dangles_redirect : (r.redirect old new).dangles = r.dangles := by
  funext l
  simp only [dangles, contains_redirect]

theorem ids_redirect : (r.redirect old new).nodes.ids = r.nodes.ids := by
  rw [redirect_eq]
  exact NodeMap.ids_map _ _

theorem checkLink_redirect (h : s.Redirected t old new) (hfree : r.callSites new = []) (l : Link) :
    (r.redirect old new).checkLink t l = r.checkLink s l := by
  have hlayout : ∀ {id n}, r.nodes.get? id = some n →
      (r.redirect old new).layout t (n.payload.redirect old new) = r.layout s n.payload :=
    fun hn => layout_redirect h (callSites_eq_nil_iff.mp hfree _ _ hn)
  simp only [checkLink, nodeAt, outputAt, inputAt, get?_redirect]
  cases hsource : r.nodes.get? l.source.node with
  | none => rfl
  | some source =>
    cases hsink : r.nodes.get? l.sink.node with
    | none => rfl
    | some sink =>
      simp only [Option.map_some, bind, Except.bind, hlayout hsource, hlayout hsink]

theorem undeclared?_redirect (h : s.Redirected t old new) {p : Payload} (hp : p.callee? ≠ some new) :
    (r.redirect old new).undeclared? t (p.redirect old new) = r.undeclared? s p := by
  cases p with
  | process name =>
    have hne : name ≠ new := fun heq => hp (congrArg some heq)
    rw [Payload.redirect_process]
    cases s with
    | none =>
      obtain rfl : t = none := by simpa using h.known
      rfl
    | some known =>
      obtain ⟨known', rfl⟩ := Option.isSome_iff_exists.mp (h.known.trans rfl)
      have hcontains : known'.contains (RoutineName.replace old new name) = known.contains name := by
        simpa [Scope.callee?, Table.contains] using congrArg Option.isSome (h.callee name hne)
      simp only [undeclared?, Option.bind_some, hcontains]
      by_cases hold : name = old
      · have hthere : known.contains name = true := hold ▸ h.target rfl
        rw [if_pos hthere, if_pos hthere]
      · rw [RoutineName.replace, if_neg hold]
  | _ => rfl

theorem unconnected_redirect (h : s.Redirected t old new) {p : Payload} (hp : p.callee? ≠ some new)
    (id : NodeId) :
    (r.redirect old new).unconnected t id (p.redirect old new) = r.unconnected s id p := by
  rw [unconnected, unconnected, layout_redirect h hp]
  rfl

theorem start?_redirect : (r.redirect old new).start? = r.start? := by
  rw [redirect_eq]
  simp only [start?, NodeMap.map, List.find?_map, Option.map_map, Function.comp_def,
    Payload.redirect_eq_start]

theorem traversal_redirect : (r.redirect old new).traversal = r.traversal := by
  rw [traversal, ids_redirect]
  rfl

end Redirected

end Routine

/-- The same finding, told of a routine with another name. -/
def Finding.inRoutine (name : String) (f : Finding) : Finding := { f with routine := name }

namespace Routine

theorem routine_of_mem_report {r : Routine} {scope : Scope} {name : String} {f : Finding}
    (h : f ∈ (r.report scope name).findings) : f.routine = name := by
  simp only [report, List.mem_append, or_assoc] at h
  rcases h with h | h | h | h | h | h
  · obtain ⟨l, _, h⟩ := List.mem_flatMap.mp h
    rcases List.mem_append.mp h with h | h <;> split at h <;> simp_all [Finding.onPort]
  · obtain ⟨e, _, rfl⟩ := List.mem_map.mp h
    rfl
  · obtain ⟨l, _, h⟩ := List.mem_filterMap.mp h
    split at h
    · cases h
    · rw [← Option.some.inj h]
      rfl
  · obtain ⟨e, _, h⟩ := List.mem_filterMap.mp h
    obtain ⟨used, _, rfl⟩ := Option.map_eq_some_iff.mp h
    rfl
  · simp only [connectionFindings] at h
    split at h
    · rw [List.mem_singleton.mp h]
    · obtain ⟨e, _, h⟩ := List.mem_flatMap.mp h
      obtain ⟨port, _, rfl⟩ := List.mem_map.mp h
      rfl
  · obtain ⟨e, _, rfl⟩ := List.mem_map.mp h
    rfl

section Findings

variable {r : Routine} {s t : Scope} {old new : String} (name name' : String)

theorem endpointFindings_redirect :
    (r.redirect old new).endpointFindings name' = (r.endpointFindings name).map (.inRoutine name') := by
  have hdangling : (r.redirect old new).danglingLinks = r.danglingLinks := by
    rw [danglingLinks, dangles_redirect]
    rfl
  simp only [endpointFindings, hdangling, contains_redirect, List.map_flatMap, List.map_append]
  congr 1
  funext l
  congr 1 <;> split <;> rfl

theorem conflictFindings_redirect :
    (r.redirect old new).conflictFindings name' = (r.conflictFindings name).map (.inRoutine name') := by
  rw [conflictFindings, conflictFindings, List.map_map]
  rfl

theorem linkFindings_redirect (h : s.Redirected t old new) (hfree : r.callSites new = []) :
    (r.redirect old new).linkFindings t name' = (r.linkFindings s name).map (.inRoutine name') := by
  simp only [linkFindings, dangles_redirect, checkLink_redirect h hfree, List.map_filterMap]
  refine List.filterMap_congr ?_
  intro l _
  cases r.checkLink s l <;> rfl

theorem referenceFindings_redirect (h : s.Redirected t old new) (hfree : r.callSites new = []) :
    (r.redirect old new).referenceFindings t name' =
      (r.referenceFindings s name).map (.inRoutine name') := by
  rw [referenceFindings, referenceFindings, entries_redirect, List.filterMap_map, List.map_filterMap]
  refine List.filterMap_congr ?_
  intro e he
  have hp := callSites_eq_nil_iff.mp hfree e.1 e.2 (r.nodes.mem_entries_iff.mp he)
  simp only [Function.comp_apply, undeclared?_redirect h hp, Option.map_map]
  rfl

theorem connectionFindings_redirect (h : s.Redirected t old new) (hfree : r.callSites new = []) :
    (r.redirect old new).connectionFindings t name' =
      (r.connectionFindings s name).map (.inRoutine name') := by
  rw [connectionFindings, connectionFindings, start?_redirect]
  cases r.start? with
  | none => rfl
  | some start =>
    simp only [entries_redirect, List.filter_map, List.flatMap_map, List.map_flatMap, List.map_map]
    refine List.flatMap_congr ?_
    intro e he
    have hp := callSites_eq_nil_iff.mp hfree e.1 e.2
      (r.nodes.mem_entries_iff.mp (List.mem_of_mem_filter he))
    simp only [unconnected_redirect h hp]
    rfl

theorem cycleFindings_redirect :
    (r.redirect old new).cycleFindings name' = (r.cycleFindings name).map (.inRoutine name') := by
  rw [cycleFindings, cycleFindings, traversal_redirect, List.map_map]
  rfl

/-- The findings of a redirected routine are those there were, under its new name. -/
theorem findings_redirect (h : s.Redirected t old new) (hfree : r.callSites new = []) :
    ((r.redirect old new).report t name').findings =
      (r.report s name).findings.map (.inRoutine name') := by
  simp only [report, List.map_append, endpointFindings_redirect name name',
    conflictFindings_redirect name name', linkFindings_redirect name name' h hfree,
    referenceFindings_redirect name name' h hfree, connectionFindings_redirect name name' h hfree,
    cycleFindings_redirect name name']

end Findings

section Outlines

variable {r : Routine} {s t : Scope} {old new : String}

theorem outline_redirect (h : s.Redirected t old new) {p : Payload} (hp : p.callee? ≠ some new)
    {a b : Site} (hsites : a.SameOutline b) (ha : a.scope = s) (hb : b.scope = t) :
    (b.synthesize (p.redirect old new)).outline = (a.synthesize p).outline := by
  cases hcallee : p.callee? with
  | none =>
    rw [Payload.redirect_of_callee?_eq_none hcallee]
    exact hsites.outline_synthesize hcallee
  | some name =>
    obtain rfl := Payload.callee?_eq_some.mp hcallee
    have hne : name ≠ new := fun heq => hp (congrArg some heq)
    have hargs := congrArg (Option.map fun x : Table ValueType × ValueType => x.1.size)
      (h.callee name hne)
    simp only [Option.map_map] at hargs
    rw [Payload.redirect_process]
    apply hsites.outline_process
    rw [ha, hb]
    exact hargs

theorem outline_contributions_redirect (h : s.Redirected t old new) (hfree : r.callSites new = [])
    (ids : List NodeId) {offers offers' : Offers}
    (hoffers : ∀ e, (offers'.get? e).isSome = (offers.get? e).isSome) :
    ((r.redirect old new).contributions t offers' ids).map (fun c => (c.1, c.2.outline)) =
      (r.contributions s offers ids).map fun c => (c.1, c.2.outline) := by
  induction ids generalizing offers offers' with
  | nil => rfl
  | cons id ids ih =>
    cases hn : r.nodes.get? id with
    | none =>
      simp only [contributions, get?_redirect, hn, Option.map_none]
      exact ih hoffers
    | some n =>
      have hn' := get?_redirect old new r id
      rw [hn, Option.map_some] at hn'
      have houtline := outline_redirect (a := ⟨id, r, s, offers⟩)
        (b := ⟨id, r.redirect old new, t, offers'⟩) h (callSites_eq_nil_iff.mp hfree id n hn)
        ⟨rfl, rfl, rfl, hoffers⟩ rfl rfl
      rw [contributions_cons hn, contributions_cons hn']
      simp only [List.map_cons, houtline]
      congr 1
      apply ih
      intro e
      have hports := congrArg (fun o : List Nat × List (List NodeId) × List Nat => o.2.2) houtline
      simp only [Synthesis.outline] at hports
      rw [Offers.isSome_get?_cons, Offers.isSome_get?_cons, hports, hoffers]

/-- A redirected routine misses the same inputs and jumps in vain to the same places. -/
theorem diagnostics_redirect (h : s.Redirected t old new) (hfree : r.callSites new = [])
    (firstLine : Nat) (name name' : String) :
    ((r.redirect old new).generate t firstLine name').diagnostics =
      (r.generate s firstLine name).diagnostics := by
  have hvars : (r.redirect old new).vars = r.vars := rfl
  refine diagnostics_eq_of_outline hvars ?_ firstLine name name'
  rw [traversal_redirect]
  exact outline_contributions_redirect h hfree _ fun _ => rfl

end Outlines

end Routine

namespace Project

theorem callersOf_eq_nil_iff {p : Project} {name : String} :
    p.callersOf name = [] ↔ ∀ e ∈ p.routines.entries, e.2.callSites name = [] := by
  simp only [callersOf, List.filter_eq_nil_iff, List.forall_mem_map, Bool.not_eq_true',
    Bool.not_eq_false, List.isEmpty_iff]

/-- One routine has another name, and its calls with it. -/
structure Renamed (p q : Project) (old new : String) (r : Routine) : Prop where
  unreserved : isReserved old = false
  routine : p.routines.get? old = some r
  fresh : new ∉ p.routines.keys
  eq : q = { p with routines := (p.routines.rename old new).map (Routine.redirect old new) }

theorem exists_renamed {p q : Project} {old text new : String}
    (h : p.renameRoutine old text = .ok (q, new)) : ∃ r, p.Renamed q old new r := by
  simp only [renameRoutine] at h
  split at h
  · cases h
  · next hreserved =>
    obtain ⟨r, hr, h⟩ := exists_ok_of_bind h
    obtain ⟨name, _, h⟩ := exists_ok_of_bind h
    split at h
    · cases h
    · next hfresh =>
      obtain ⟨rfl, rfl⟩ := Prod.mk.inj (Except.ok.inj h)
      rw [Table.contains_iff] at hfresh
      exact ⟨r, by simpa using hreserved, get?_of_routine hr, hfresh, rfl⟩

namespace Renamed

variable {p q : Project} {old new : String} {r : Routine}

theorem renameRoutine_eq (h : p.Renamed q old new r) {text : String}
    (hname : RoutineName.normalize r.isProcess text = .ok new) :
    p.renameRoutine old text = .ok (q, new) := by
  have hroutine : p.routine old = .ok r := by simp [Project.routine, h.routine]
  have hfresh : p.routines.contains new = false := by
    rw [← Bool.not_eq_true, Table.contains_iff]
    exact h.fresh
  simp only [renameRoutine, h.unreserved, hroutine, bind, Except.bind, hname, hfresh, h.eq]
  rfl

theorem entries_eq (h : p.Renamed q old new r) :
    q.routines.entries = p.routines.entries.map fun e =>
      (RoutineName.replace old new e.1, e.2.redirect old new) := by
  rw [h.eq]
  simp only [Table.map, Table.entries_rename h.fresh, List.map_map, Function.comp_def]

theorem keys_eq (h : p.Renamed q old new r) :
    q.routines.keys = p.routines.keys.map (RoutineName.replace old new) := by
  rw [Table.keys, Table.keys, h.entries_eq, List.map_map, List.map_map]
  rfl

theorem ne (h : p.Renamed q old new r) : new ≠ old := by
  intro heq
  have hold : old ∈ p.routines.keys := (p.routines.contains_iff old).mp (by simp [Table.contains, h.routine])
  exact h.fresh (heq ▸ hold)

theorem notMem_keys (h : p.Renamed q old new r) : old ∉ q.routines.keys := by
  rw [h.keys_eq, List.mem_map]
  rintro ⟨name, _, hname⟩
  exact RoutineName.replace_ne h.ne hname

theorem get?_eq (h : p.Renamed q old new r) {name : String} (hname : name ≠ new) :
    q.routines.get? (RoutineName.replace old new name) =
      (p.routines.get? name).map (Routine.redirect old new) := by
  rw [Table.get?, h.entries_eq]
  exact Entries.lookup_map_replace _ h.fresh hname

theorem scope_eq (h : p.Renamed q old new r) : p.scope.Redirected q.scope old new where
  known := rfl
  target := by
    intro _
    simp [scope, Scope.callee?, h.routine]
  callee := by
    intro name hname
    simp only [scope, Scope.callee?, Option.bind_some, h.get?_eq hname, Option.map_map]
    rfl

/-- The findings of the project are the same, told of the routine under its new name. -/
theorem findings_eq (h : p.Renamed q old new r) (hfree : p.callersOf new = []) :
    (Report.ofRoutines q.routines).findings = (Report.ofRoutines p.routines).findings.map fun f =>
      f.inRoutine (RoutineName.replace old new f.routine) := by
  simp only [Report.ofRoutines, h.entries_eq, List.flatMap_map, List.map_flatMap]
  refine List.flatMap_congr ?_
  intro e he
  have hfindings := Routine.findings_redirect e.1 (RoutineName.replace old new e.1) h.scope_eq
    (callersOf_eq_nil_iff.mp hfree e he)
  refine hfindings.trans (List.map_congr_left ?_)
  intro f hf
  rw [Routine.routine_of_mem_report hf]

theorem diagnostics_eq (h : p.Renamed q old new r) (hfree : p.callersOf new = []) {s t : Scope}
    (hscope : s.Redirected t old new) (firstLine : Nat) :
    q.routines.entries.map (fun e => (e.2.generate t firstLine e.1).diagnostics) =
      p.routines.entries.map fun e => (e.2.generate s firstLine e.1).diagnostics := by
  rw [h.entries_eq, List.map_map]
  apply List.map_congr_left
  intro e he
  exact Routine.diagnostics_redirect hscope (callersOf_eq_nil_iff.mp hfree e he) firstLine _ _

/-- The old name brings the old project back. -/
theorem back (h : p.Renamed q old new r) (hfree : p.callersOf new = [])
    (hreserved : isReserved new = false) : q.Renamed p new old (r.redirect old new) where
  unreserved := hreserved
  routine := by
    have hget := h.get?_eq h.ne.symm
    rwa [RoutineName.replace, if_pos rfl, h.routine] at hget
  fresh := h.notMem_keys
  eq := by
    have hroutines : (q.routines.rename new old).map (Routine.redirect new old) = p.routines := by
      apply Table.ext
      simp only [Table.map, Table.entries_rename h.notMem_keys, h.entries_eq, List.map_map]
      refine (List.map_congr_left ?_).trans (List.map_id _)
      intro e he
      have hne : e.1 ≠ new := fun heq => h.fresh (heq ▸ List.mem_map_of_mem he)
      have hsites := callersOf_eq_nil_iff.mp hfree e he
      simp only [Function.comp_apply, RoutineName.replace_replace hne,
        Routine.redirect_redirect hsites, id_eq]
    rw [hroutines, h.eq]

theorem valid_eq (h : p.Renamed q old new r) (hfree : p.callersOf new = []) :
    (Report.ofRoutines q.routines).valid = (Report.ofRoutines p.routines).valid := by
  rw [Report.valid, Report.valid, h.findings_eq hfree, List.any_map]
  rfl

end Renamed

/-- A routine that is renamed to a name that no node calls: the routines keep their order, the report
finds the same faults and generation tells the same, and the old name, where it is one, brings back
the project there was. -/
theorem renameRoutine_keeps_meaning {p q : Project} {old text new : String}
    (h : p.renameRoutine old text = .ok (q, new)) (hfree : p.callersOf new = []) :
    q.routines.keys = p.routines.keys.map (fun name => if name = old then new else name) ∧
      (Report.ofRoutines q.routines).findings = (Report.ofRoutines p.routines).findings.map (fun f =>
        if f.routine = old then { f with routine := new } else f) ∧
      (Report.ofRoutines q.routines).valid = (Report.ofRoutines p.routines).valid ∧
      (∀ firstLine, (Program.partsOf q.routines firstLine).map (·.diagnostics) =
        (Program.partsOf p.routines firstLine).map (·.diagnostics)) ∧
      (∀ firstLine, q.routines.entries.map (fun e => (e.2.generate none firstLine e.1).diagnostics) =
        p.routines.entries.map fun e => (e.2.generate none firstLine e.1).diagnostics) ∧
      ∀ r, p.routines.get? old = some r → RoutineName.normalize r.isProcess old = .ok old →
        isReserved new = false → q.renameRoutine new old = .ok (p, old) := by
  obtain ⟨r, hr⟩ := exists_renamed h
  refine ⟨hr.keys_eq, ?_, hr.valid_eq hfree, ?_, ?_, ?_⟩
  · rw [hr.findings_eq hfree]
    apply List.map_congr_left
    intro f _
    simp only [Finding.inRoutine, RoutineName.replace]
    split <;> rfl
  · intro firstLine
    have hparts := hr.diagnostics_eq hfree hr.scope_eq firstLine
    simp only [Program.partsOf, List.map_map]
    exact hparts
  · exact hr.diagnostics_eq hfree (Scope.redirected_none old new)
  · intro r' hr' hnormal hreserved
    obtain rfl : r = r' := Option.some.inj (hr.routine.symm.trans hr')
    exact (hr.back hfree hreserved).renameRoutine_eq hnormal

/-- Two calls of a process: by itself, and by the routine before it, which also calls what is not there. -/
def echo : Project :=
  { name := "Echo"
    routines := .ofList
      [("Initialize",
        { isProcess := false
          args := .empty
          vars := .empty
          returns := .uint64
          nodes := .ofList
            [(0, .start), (1, .ofPayload "End" (.returnLiteral (.number 0))),
             (2, .ofPayload "Process" (.process "again")),
             (3, .ofPayload "Process" (.process "nowhere"))]
          links := [⟨⟨0, 0⟩, ⟨2, 0⟩, .flow⟩, ⟨⟨2, 1⟩, ⟨3, 0⟩, .flow⟩, ⟨⟨3, 1⟩, ⟨1, 0⟩, .flow⟩] }),
       ("again",
        { isProcess := true
          args := .ofList [("x", .uint64)]
          vars := .empty
          returns := .uint64
          nodes := .ofList
            [(0, .start), (1, .ofPayload "End" (.returnLinked .uint64)),
             (2, .ofPayload "Process" (.process "again"))]
          links :=
            [⟨⟨0, 0⟩, ⟨2, 0⟩, .flow⟩, ⟨⟨2, 1⟩, ⟨1, 0⟩, .flow⟩,
             ⟨⟨2, 3⟩, ⟨1, 1⟩, .value .uint64⟩] })] }

/-- The argument that the first call lacks and the callee that is not there are found as before. -/
theorem renameRoutine_echo :
    ∃ q, echo.renameRoutine "again" " Repeat " = .ok (q, "repeat") ∧ echo.callersOf "repeat" = [] ∧
      q.routines.keys = ["Initialize", "repeat"] ∧
      (Report.ofRoutines q.routines).findings =
        [⟨"Initialize", some 3, none, .unknownReference "nowhere"⟩,
         ⟨"Initialize", some 2, some 2, .missingConnection⟩,
         ⟨"repeat", some 2, some 2, .missingConnection⟩] ∧
      q.renameRoutine "repeat" "again" = .ok (echo, "again") := by
  let q : Project :=
    { echo with
      routines := (echo.routines.rename "again" "repeat").map (Routine.redirect "again" "repeat") }
  have hrename : echo.renameRoutine "again" " Repeat " = .ok (q, "repeat") := by rfl
  have hfree : echo.callersOf "repeat" = [] := by decide
  have hfindings : (Report.ofRoutines echo.routines).findings =
      [⟨"Initialize", some 3, none, .unknownReference "nowhere"⟩,
       ⟨"Initialize", some 2, some 2, .missingConnection⟩,
       ⟨"again", some 2, some 2, .missingConnection⟩] := by decide
  obtain ⟨hkeys, hreport, _, _, _, hback⟩ := renameRoutine_keeps_meaning hrename hfree
  refine ⟨q, hrename, hfree, hkeys, ?_, hback _ rfl (by rfl) (by decide)⟩
  rw [hreport, hfindings]
  rfl

end Project

end FlowBasic
