import FlowBasic.Project.Edit
import FlowBasic.Proofs.LinkExclusivity
import FlowBasic.Proofs.Ports

namespace FlowBasic

/-- Two scopes tell the same about the arguments and results of callees. -/
def Scope.Agree (s t : Scope) : Prop :=
  ∀ name, (s.callee? name).map (fun r => (r.args, r.returns)) =
    (t.callee? name).map fun r => (r.args, r.returns)

namespace NodeMap

theorem le_of_maxId? {m : NodeMap} {last : NodeId} (h : m.maxId? = some last) :
    ∀ id ∈ m.ids, id ≤ last := by
  obtain ⟨earlier, hids⟩ := List.getLast?_eq_some_iff.mp h
  have hsorted : m.ids.Pairwise fun a b => a < b := List.pairwise_map.mpr m.sorted
  rw [hids] at hsorted ⊢
  intro id hid
  rcases List.mem_append.mp hid with hid | hid
  · exact UInt32.le_of_lt ((List.pairwise_append.mp hsorted).2.2 id hid last List.mem_cons_self)
  · exact UInt32.le_of_eq (List.mem_singleton.mp hid)

/-- The next id is larger than every id in use. -/
theorem lt_next {m : NodeMap} {new : NodeId} (h : m.next = .ok new) : ∀ id ∈ m.ids, id < new := by
  intro id hid
  obtain ⟨last, hlast⟩ : ∃ last, m.maxId? = some last := by
    cases hmax : m.maxId? with
    | none => simp [List.getLast?_eq_none_iff.mp hmax] at hid
    | some last => exact ⟨last, rfl⟩
  have hle := le_of_maxId? hlast id hid
  simp only [next, hlast, Option.getD_some] at h
  split at h
  · next hroom =>
    obtain rfl := Except.ok.inj h
    rw [UInt32.lt_iff_toNat_lt, UInt32.toNat_add]
    rw [UInt32.le_iff_toNat_le] at hle
    simp only [UInt32.size] at hroom
    have hone : (1 : UInt32).toNat = 1 := rfl
    omega
  · exact absurd h (by simp)

theorem get?_next {m : NodeMap} {new : NodeId} (h : m.next = .ok new) : m.get? new = none := by
  cases hget : m.get? new with
  | none => rfl
  | some n =>
    have hmem : new ∈ m.ids := (m.contains_iff new).mp (by simp [contains, hget])
    exact absurd (lt_next h new hmem) (UInt32.lt_irrefl new)

end NodeMap

namespace Routine

/-- The layout of a node depends on the declarations and on what callees take and give. -/
theorem layout_congr {r r' : Routine} {s t : Scope} (hargs : r.args = r'.args)
    (hvars : r.vars = r'.vars) (h : s.Agree t) (p : Payload) : r.layout s p = r'.layout t p := by
  cases p with
  | process name =>
    have hname := h name
    cases hs : s.callee? name <;> cases ht : t.callee? name <;> simp_all [layout]
  | ending e => cases e <;> rfl
  | _ => simp only [layout, hargs, hvars]

theorem checkLink_congr {r r' : Routine} {s t : Scope} (hargs : r.args = r'.args)
    (hvars : r.vars = r'.vars) (h : s.Agree t) {l : Link}
    (hsource : (r.nodes.get? l.source.node).map Node.payload =
      (r'.nodes.get? l.source.node).map Node.payload)
    (hsink : (r.nodes.get? l.sink.node).map Node.payload =
      (r'.nodes.get? l.sink.node).map Node.payload) :
    r.checkLink s l = r'.checkLink t l := by
  have hlayout := layout_congr hargs hvars h
  have hpayload : ∀ {x y : Option Node}, x.map Node.payload = y.map Node.payload →
      (x = none ∧ y = none) ∨ ∃ a b, x = some a ∧ y = some b ∧ a.payload = b.payload := by
    intro x y hxy
    cases x <;> cases y <;> simp_all
  rcases hpayload hsource with ⟨hs, ht⟩ | ⟨a, b, hs, ht, hab⟩
  · simp only [checkLink, nodeAt, hs, ht]
    rfl
  rcases hpayload hsink with ⟨hs', ht'⟩ | ⟨c, d, hs', ht', hcd⟩
  · simp only [checkLink, nodeAt, hs, ht, hs', ht']
    rfl
  · simp only [checkLink, nodeAt, outputAt, inputAt, hs, ht, hs', ht', hlayout, bind, Except.bind, hab,
      hcd]

/-- A link still fits when the nodes at its ends stay what they are. -/
theorem checkLink_of_payloads {r r' : Routine} {scope : Scope} {l : Link}
    (h : r.checkLink scope l = .ok ()) (hargs : r.args = r'.args) (hvars : r.vars = r'.vars)
    (hkeep : ∀ id n, l.touches id = true → r.nodes.get? id = some n →
      ∃ m, r'.nodes.get? id = some m ∧ m.payload = n.payload) :
    r'.checkLink scope l = .ok () := by
  have hend : ∀ {id : NodeId} {n : Node}, l.touches id = true → r.nodes.get? id = some n →
      (r.nodes.get? id).map Node.payload = (r'.nodes.get? id).map Node.payload := by
    intro id n hid hn
    obtain ⟨m, hm, hpayload⟩ := hkeep id n hid hn
    rw [hn, hm, Option.map_some, Option.map_some, hpayload]
  obtain ⟨⟨_, _, hsource, _⟩, _, _, hsink, _⟩ := ports_of_checkLink h
  rw [← checkLink_congr hargs hvars (fun _ => rfl) (hend (by simp [Link.touches]) hsource)
    (hend (by simp [Link.touches]) hsink)]
  exact h

/-- What drawing relies on: a start that stays, links that fit, and ports that are not shared. -/
structure Tidy (r : Routine) (scope : Scope) : Prop where
  start : ∃ id n, r.nodes.get? id = some n ∧ n.payload = .start ∧ n.locked = true
  exclusive : Link.Exclusive r.links
  fits : ∀ l ∈ r.links, r.checkLink scope l = .ok ()

theorem Tidy.congr {r : Routine} {s t : Scope} (h : r.Tidy s) (hst : s.Agree t) : r.Tidy t := by
  refine ⟨h.start, h.exclusive, ?_⟩
  intro l hl
  rw [← checkLink_congr rfl rfl hst rfl rfl]
  exact h.fits l hl

/-- What one edit can do to the graph of a routine. -/
inductive Redrawn (r : Routine) (scope : Scope) : Routine → Prop
  /-- Nodes come in or change their looks. -/
  | nodes {nodes : NodeMap} (h : ∀ id n, r.nodes.get? id = some n →
      ∃ m, nodes.get? id = some m ∧ m.payload = n.payload ∧ m.locked = n.locked) :
      Redrawn r scope { r with nodes }
  /-- A node goes that is not locked, and its links with it. -/
  | removed {id : NodeId} {n : Node} (hn : r.nodes.get? id = some n) (hfree : n.locked = false) :
      Redrawn r scope
        { r with nodes := r.nodes.erase id, links := r.links.filter fun l => !l.touches id }
  | fewer {links : List Link} (h : links.Sublist r.links) : Redrawn r scope { r with links }
  | placed {l : Link} (hl : l ∉ r.links) (hfits : r.checkLink scope l = .ok ()) :
      Redrawn r scope { r with links := l.place r.links }

theorem Redrawn.interface {r r' : Routine} {scope : Scope} (h : Redrawn r scope r') :
    r'.args = r.args ∧ r'.vars = r.vars ∧ r'.returns = r.returns := by
  cases h <;> exact ⟨rfl, rfl, rfl⟩

theorem Redrawn.tidy {r r' : Routine} {scope : Scope} (h : Redrawn r scope r') (hr : r.Tidy scope) :
    r'.Tidy scope := by
  cases h with
  | nodes hkeep =>
    obtain ⟨id, n, hn, hstart, hlocked⟩ := hr.start
    obtain ⟨m, hm, hpayload, hlock⟩ := hkeep id n hn
    refine ⟨⟨id, m, hm, hpayload.trans hstart, hlock.trans hlocked⟩, hr.exclusive, ?_⟩
    intro l hl
    refine checkLink_of_payloads (hr.fits l hl) rfl rfl ?_
    intro id n _ hn
    obtain ⟨m, hm, hpayload, _⟩ := hkeep id n hn
    exact ⟨m, hm, hpayload⟩
  | @removed id n hn hfree =>
    have hother : ∀ {u : NodeId}, u ≠ id → (r.nodes.erase id).get? u = r.nodes.get? u := by
      intro u hu
      rw [NodeMap.get?_erase, if_neg hu]
    obtain ⟨start, m, hm, hstart, hlocked⟩ := hr.start
    have hne : start ≠ id := by
      intro heq
      rw [heq, hn] at hm
      rw [Option.some.inj hm, hlocked] at hfree
      exact absurd hfree (by decide)
    refine ⟨⟨start, m, (hother hne).trans hm, hstart, hlocked⟩,
      hr.exclusive.sublist List.filter_sublist, ?_⟩
    intro l hl
    obtain ⟨hl, haway⟩ := List.mem_filter.mp hl
    refine checkLink_of_payloads (hr.fits l hl) rfl rfl ?_
    intro u m hu hm
    have hne : u ≠ id := by
      intro heq
      rw [← heq, hu] at haway
      exact absurd haway (by decide)
    exact ⟨m, (hother hne).trans hm, rfl⟩
  | fewer hsub =>
    refine ⟨hr.start, hr.exclusive.sublist hsub, ?_⟩
    intro l hl
    exact hr.fits l (hsub.mem hl)
  | placed hl hfits =>
    refine ⟨hr.start, ?_, ?_⟩
    · apply hr.exclusive.place_of_uniform hl
      · intro m hm hsource
        exact isFlow_eq_of_source hfits (hr.fits m hm) hsource
      · intro m hm hsink
        exact isFlow_eq_of_sink hfits (hr.fits m hm) hsink
    · intro m hm
      rcases Link.mem_of_mem_place hl hm with rfl | hm
      · exact hfits
      · exact hr.fits m hm

end Routine

theorem exists_ok_of_map {ε α β : Type} {x : Except ε α} {f : α → β} {b : β}
    (h : x.map f = .ok b) : ∃ a, x = .ok a ∧ f a = b := by
  cases x with
  | error e => cases h
  | ok a => exact ⟨a, rfl, Except.ok.inj h⟩

namespace NodeMap

theorem get?_of_find {m : NodeMap} {id : NodeId} {n : Node} (h : m.find id = .ok n) :
    m.get? id = some n := by
  simp only [find] at h
  split at h <;> simp_all

/-- A node that is changed and stays what it is leaves the others as they are. -/
theorem keeps_insert {m : NodeMap} {id : NodeId} {n n' : Node} (hn : m.get? id = some n)
    (hpayload : n'.payload = n.payload) (hlocked : n'.locked = n.locked) :
    ∀ u x, m.get? u = some x →
      ∃ y, (m.insert id n').get? u = some y ∧ y.payload = x.payload ∧ y.locked = x.locked := by
  intro u x hx
  rw [get?_insert]
  by_cases hu : u = id
  · rw [hu, hn] at hx
    obtain rfl := Option.some.inj hx
    exact ⟨n', if_pos hu, hpayload, hlocked⟩
  · exact ⟨x, (if_neg hu).trans hx, rfl, rfl⟩

end NodeMap

namespace ProjectEdit

/-- The edits of a graph that add, move and remove nodes, or add and remove links. -/
def draws : ProjectEdit → Bool
  | nodes _ (.add _) => true
  | nodes _ (.move ..) => true
  | nodes _ (.setEdit ..) => true
  | addNode .. => true
  | removeNode .. => true
  | links .. => true
  | _ => false

end ProjectEdit

namespace Project

theorem get?_of_routine {p : Project} {name : String} {r : Routine} (h : p.routine name = .ok r) :
    p.routines.get? name = some r := by
  simp only [routine] at h
  split at h <;> simp_all

/-- An edit of one routine that is drawn. -/
def Redrawn (p p' : Project) : Prop :=
  ∃ name r r', p.routines.get? name = some r ∧ r.Redrawn p.scope r' ∧ p' = p.setRoutine name r'

theorem redrawn_of_updateNodes {p p' : Project} {name : String} {e : NodeEdit} {id : NodeId}
    (he : (ProjectEdit.nodes name e).draws = true) (h : p.updateNodes name e = .ok (p', id)) :
    p.Redrawn p' := by
  obtain ⟨r, hr, h⟩ := exists_ok_of_bind h
  obtain ⟨⟨r', id'⟩, hr', h⟩ := exists_ok_of_bind h
  obtain ⟨rfl, rfl⟩ := Prod.mk.inj (Except.ok.inj h)
  refine ⟨name, r, r', get?_of_routine hr, ?_, rfl⟩
  simp only [Routine.updateNodes] at hr'
  split at hr'
  · next nodes id' happly =>
    obtain ⟨rfl, rfl⟩ := Prod.mk.inj (Except.ok.inj hr')
    apply Routine.Redrawn.nodes
    cases e with
    | add n =>
      obtain ⟨new, hnew, happly⟩ := exists_ok_of_bind happly
      obtain ⟨rfl, rfl⟩ := Prod.mk.inj (Except.ok.inj happly)
      intro u x hx
      have hne : u ≠ new := by
        intro heq
        rw [heq, NodeMap.get?_next hnew] at hx
        cases hx
      exact ⟨x, by rw [NodeMap.get?_insert, if_neg hne, hx], rfl, rfl⟩
    | move id position =>
      obtain ⟨n, hn, happly⟩ := exists_ok_of_bind happly
      obtain ⟨rfl, rfl⟩ := Prod.mk.inj (Except.ok.inj happly)
      exact NodeMap.keeps_insert (NodeMap.get?_of_find hn) rfl rfl
    | setEdit id edit =>
      obtain ⟨n, hn, happly⟩ := exists_ok_of_bind happly
      obtain ⟨rfl, rfl⟩ := Prod.mk.inj (Except.ok.inj happly)
      exact NodeMap.keeps_insert (NodeMap.get?_of_find hn) rfl rfl
    | replace | setLiteral | delete => cases he
  · cases hr'

theorem redrawn_of_removeNode {p p' : Project} {name : String} {id : NodeId}
    (h : p.removeNode name id = .ok p') : p.Redrawn p' := by
  obtain ⟨r, hr, h⟩ := exists_ok_of_bind h
  obtain ⟨r', hr', h⟩ := exists_ok_of_bind h
  obtain rfl := Except.ok.inj h
  refine ⟨name, r, r', get?_of_routine hr, ?_, rfl⟩
  simp only [Routine.removeNode] at hr'
  split at hr'
  · next nodes _ happly =>
    obtain rfl := Except.ok.inj hr'
    obtain ⟨n, hn, happly⟩ := exists_ok_of_bind happly
    split at happly
    · cases happly
    · next hfree =>
      obtain ⟨rfl, -⟩ := Prod.mk.inj (Except.ok.inj happly)
      exact .removed (NodeMap.get?_of_find hn) (by simpa using hfree)
  · cases hr'

theorem redrawn_of_updateLinks {p p' : Project} {name : String} {e : LinkEdit}
    (h : p.updateLinks name e = .ok p') : p.Redrawn p' := by
  obtain ⟨r, hr, h⟩ := exists_ok_of_bind h
  obtain ⟨r', hr', h⟩ := exists_ok_of_bind h
  obtain rfl := Except.ok.inj h
  refine ⟨name, r, r', get?_of_routine hr, ?_, rfl⟩
  cases e with
  | add l =>
    simp only [Routine.updateLinks] at hr'
    cases hfits : r.checkLink p.scope l with
    | error f =>
      rw [hfits] at hr'
      cases hr'
    | ok =>
      rw [hfits] at hr'
      by_cases hl : l ∈ r.links
      · rw [LinkEdit.apply, if_pos hl] at hr'
        cases hr'
      · rw [LinkEdit.apply, if_neg hl] at hr'
        obtain rfl := Except.ok.inj hr'
        exact .placed hl hfits
  | remove l =>
    obtain rfl := Except.ok.inj hr'
    exact .fewer List.erase_sublist
  | removeRelated id =>
    obtain rfl := Except.ok.inj hr'
    exact .fewer List.filter_sublist

/-- A drawing edit is refused or redraws one routine. -/
theorem redrawn_of_draws (p : Project) {e : ProjectEdit} (he : e.draws = true) :
    e.applyD p = p ∨ p.Redrawn (e.applyD p) := by
  simp only [ProjectEdit.applyD]
  cases happly : e.apply p with
  | error _ => exact .inl rfl
  | ok result =>
    refine .inr ?_
    cases e with
    | nodes name edit =>
      obtain ⟨done, hdone, rfl⟩ := exists_ok_of_map happly
      exact redrawn_of_updateNodes he hdone
    | addNode name label payload position =>
      obtain ⟨done, hdone, rfl⟩ := exists_ok_of_map happly
      exact redrawn_of_updateNodes rfl hdone
    | removeNode name id =>
      obtain ⟨done, hdone, rfl⟩ := exists_ok_of_map happly
      exact redrawn_of_removeNode hdone
    | links name edit =>
      obtain ⟨done, hdone, rfl⟩ := exists_ok_of_map happly
      exact redrawn_of_updateLinks hdone
    | _ => cases he

/-- Every routine is tidy among the routines of the project. -/
def Tidy (p : Project) : Prop := ∀ name r, p.routines.get? name = some r → r.Tidy p.scope

theorem agree_setRoutine {p : Project} {name : String} {r r' : Routine}
    (hr : p.routines.get? name = some r) (hargs : r'.args = r.args) (hreturns : r'.returns = r.returns) :
    p.scope.Agree (p.setRoutine name r').scope := by
  intro x
  simp only [scope, setRoutine, Scope.callee?, Option.bind_some, Table.get?_insert]
  by_cases hx : x = name
  · rw [if_pos hx, hx, hr, Option.map_some, Option.map_some, hargs, hreturns]
  · rw [if_neg hx]

theorem Redrawn.tidy {p p' : Project} (h : p.Redrawn p') (hp : p.Tidy) : p'.Tidy := by
  obtain ⟨name, r, r', hr, hredrawn, rfl⟩ := h
  obtain ⟨hargs, _, hreturns⟩ := hredrawn.interface
  have hagree := agree_setRoutine hr hargs hreturns
  intro x rx hx
  simp only [setRoutine, Table.get?_insert] at hx
  split at hx
  · obtain rfl := Option.some.inj hx
    exact (hredrawn.tidy (hp name r hr)).congr hagree
  · exact (hp x rx hx).congr hagree

theorem Tidy.run {p : Project} (hp : p.Tidy) {es : List ProjectEdit}
    (hes : ∀ e ∈ es, e.draws = true) : (p.run es).Tidy := by
  induction es generalizing p with
  | nil => exact hp
  | cons e es ih =>
    have hrest : ∀ f ∈ es, f.draws = true := fun f hf => hes f (List.mem_cons_of_mem _ hf)
    have hstep : (e.applyD p).Tidy := by
      rcases p.redrawn_of_draws (hes e List.mem_cons_self) with hsame | hredrawn
      · rw [hsame]
        exact hp
      · exact hredrawn.tidy hp
    exact ih hstep hrest

end Project

/-- Faults of the links and of the start, which do not depend on what the nodes compute. -/
def Fault.structural : Fault → Bool
  | invalidPath => true
  | conflictingLinks => true
  | incompatibleLink _ => true
  | _ => false

namespace Routine

theorem structural_connectionFindings (r : Routine) (scope : Scope) (name : String) :
    (∀ f ∈ r.connectionFindings scope name, f.fault.structural = false) ↔ r.start?.isSome = true := by
  cases hstart : r.start? with
  | none => simp [connectionFindings, hstart, Fault.structural]
  | some start =>
    refine iff_of_true ?_ rfl
    intro f hf
    rw [fault_of_mem_connectionFindings hf, hstart]
    rfl

/-- The structure of a routine is sound when the three passes over its links find nothing and it has a
start. -/
theorem structural_report (r : Routine) (scope : Scope) (name : String) :
    (∀ f ∈ (r.report scope name).findings, f.fault.structural = false) ↔
      r.endpointFindings name = [] ∧ r.conflictFindings name = [] ∧ r.linkFindings scope name = [] ∧
        r.start?.isSome = true := by
  have hnone : ∀ fs : List Finding, (∀ f ∈ fs, f.fault.structural = true) →
      ((∀ f ∈ fs, f.fault.structural = false) ↔ fs = []) := by
    intro fs hall
    cases fs with
    | nil => simp
    | cons f fs => simp [hall f List.mem_cons_self]
  have hends : ∀ f ∈ r.endpointFindings name, f.fault.structural = true := by
    intro f hf
    rw [fault_of_mem_endpointFindings hf]
    rfl
  have hconflicts : ∀ f ∈ r.conflictFindings name, f.fault.structural = true := by
    intro f hf
    rw [fault_of_mem_conflictFindings hf]
    rfl
  have hlinks : ∀ f ∈ r.linkFindings scope name, f.fault.structural = true := by
    intro f hf
    obtain ⟨reason, hfault⟩ := fault_of_mem_linkFindings hf
    rw [hfault]
    rfl
  have hreferences : ∀ f ∈ r.referenceFindings scope name, f.fault.structural = false := by
    intro f hf
    obtain ⟨used, hfault⟩ := fault_of_mem_referenceFindings hf
    rw [hfault]
    rfl
  have hcycles : ∀ f ∈ r.cycleFindings name, f.fault.structural = false := by
    intro f hf
    rw [fault_of_mem_cycleFindings hf]
    rfl
  simp only [report, List.forall_mem_append, hnone _ hends, hnone _ hconflicts, hnone _ hlinks,
    r.structural_connectionFindings scope name, iff_true_intro hreferences, iff_true_intro hcycles,
    and_true, and_assoc]

theorem Tidy.structural_report {r : Routine} {scope : Scope} (h : r.Tidy scope) (name : String) :
    ∀ f ∈ (r.report scope name).findings, f.fault.structural = false := by
  have hends : ∀ l ∈ r.links, l.source.node ∈ r.nodes.ids ∧ l.sink.node ∈ r.nodes.ids := by
    intro l hl
    obtain ⟨⟨n, _, hn, _⟩, m, _, hm, _⟩ := ports_of_checkLink (h.fits l hl)
    rw [← NodeMap.contains_iff, ← NodeMap.contains_iff]
    simp [NodeMap.contains, hn, hm]
  have hstart : r.start?.isSome = true := by
    obtain ⟨id, n, hn, hpayload, _⟩ := h.start
    rw [Option.isSome_iff_ne_none, ne_eq, start?_eq_none_iff]
    exact fun hnone => hnone ⟨id, n, hn, hpayload⟩
  rw [Routine.structural_report, endpointFindings_eq_nil_iff, conflictFindings_eq_nil_iff,
    linkFindings_eq_nil_iff, ← Link.exclusive_iff]
  exact ⟨hends, h.exclusive, fun l hl _ => h.fits l hl, hstart⟩

theorem tidy_of_structural_report {r : Routine} {scope : Scope} {name : String}
    (h : ∀ f ∈ (r.report scope name).findings, f.fault.structural = false)
    (hstart : ∃ id n, r.nodes.get? id = some n ∧ n.payload = .start ∧ n.locked = true) :
    r.Tidy scope := by
  rw [Routine.structural_report, endpointFindings_eq_nil_iff, conflictFindings_eq_nil_iff,
    linkFindings_eq_nil_iff, ← Link.exclusive_iff] at h
  obtain ⟨hends, hexclusive, hfits, -⟩ := h
  refine ⟨hstart, hexclusive, ?_⟩
  intro l hl
  exact hfits l hl ((r.dangles_eq_false_iff l).mpr (hends l hl))

theorem tidy_fresh (isProcess : Bool) (scope : Scope) : (fresh isProcess).Tidy scope := by
  refine ⟨⟨0, _, rfl, rfl, rfl⟩, List.pairwise_singleton _ _, ?_⟩
  intro l hl
  rw [List.mem_singleton.mp hl]
  rfl

end Routine

namespace Project

/-- What the report of a project has against its structure. -/
def structuralFindings (p : Project) : List Finding :=
  (Report.ofRoutines p.routines).findings.filter (·.fault.structural)

/-- Every routine has a start that cannot be removed. -/
def Anchored (p : Project) : Prop :=
  ∀ e ∈ p.routines.entries, ∃ f ∈ e.2.nodes.entries, f.2.payload = .start ∧ f.2.locked = true

instance (p : Project) : Decidable p.Anchored := inferInstanceAs (Decidable (∀ e ∈ _, _))

theorem mem_entries_iff {p : Project} {name : String} {r : Routine} :
    (name, r) ∈ p.routines.entries ↔ p.routines.get? name = some r :=
  (Entries.lookup_eq_some_iff p.routines.nodup).symm

theorem structuralFindings_eq_nil_iff (p : Project) :
    p.structuralFindings = [] ↔ ∀ name r, p.routines.get? name = some r →
      ∀ f ∈ (r.report p.scope name).findings, f.fault.structural = false := by
  simp only [structuralFindings, Report.ofRoutines, List.filter_eq_nil_iff, List.mem_flatMap,
    Bool.not_eq_true]
  constructor
  · intro h name r hr f hf
    exact h f ⟨(name, r), mem_entries_iff.mpr hr, hf⟩
  · intro h f hf
    obtain ⟨⟨name, r⟩, hmem, hf⟩ := hf
    exact h name r (mem_entries_iff.mp hmem) f hf

theorem tidy_of_structuralFindings {p : Project} (h : p.structuralFindings = []) (ha : p.Anchored) :
    p.Tidy := by
  intro name r hr
  obtain ⟨⟨id, n⟩, hn, hstart⟩ := ha (name, r) (mem_entries_iff.mpr hr)
  exact Routine.tidy_of_structural_report (p.structuralFindings_eq_nil_iff.mp h name r hr)
    ⟨id, n, r.nodes.mem_entries_iff.mp hn, hstart⟩

theorem tidy_fresh (name : String) : (fresh name).Tidy := by
  intro x r hx
  have hr : r = Routine.fresh false := by
    simp only [fresh, reserved, Table.ofList, List.map_cons, List.map_nil, List.foldl_cons,
      List.foldl_nil, Table.get?_insert] at hx
    split at hx
    · exact (Option.some.inj hx).symm
    · split at hx
      · exact (Option.some.inj hx).symm
      · cases hx
  rw [hr]
  exact Routine.tidy_fresh false _

/-- However a graph is drawn, by edits that are accepted or refused, the report finds no fault in the
structure of a project that had none. -/
theorem structuralFindings_run {p : Project}
    (hp : (∃ name, p = fresh name) ∨ (p.structuralFindings = [] ∧ p.Anchored))
    {es : List ProjectEdit} (hes : ∀ e ∈ es, e.draws = true) : (p.run es).structuralFindings = [] := by
  have htidy : p.Tidy := by
    rcases hp with ⟨name, rfl⟩ | ⟨hnone, hanchored⟩
    · exact tidy_fresh name
    · exact tidy_of_structuralFindings hnone hanchored
  rw [structuralFindings_eq_nil_iff]
  intro name r hr
  exact (htidy.run hes name r hr).structural_report name

/-- Draws a branch into a new project, in the place of the link from its start to its end. -/
def drawnBranch : Project :=
  (fresh "Guard").run
    [.addNode "Initialize" "Control" (.branch .ifThen) .origin,
     .addNode "Initialize" "Condition" (.condition (.uint64 .greater ⟨some 1, some 0⟩)) .origin,
     .links "Initialize" (.add ⟨⟨0, 0⟩, ⟨2, 0⟩, .flow⟩),
     .links "Initialize" (.add ⟨⟨3, 1⟩, ⟨2, 1⟩, .value .uint64⟩),
     .links "Initialize" (.add ⟨⟨2, 2⟩, ⟨1, 0⟩, .flow⟩),
     .links "Initialize" (.add ⟨⟨2, 3⟩, ⟨1, 0⟩, .flow⟩)]

/-- The edits of the branch go on: the second is refused for its link and the third for its lock. The
last node takes the id of the one removed before. -/
theorem structuralFindings_drawnBranch :
    let es : List ProjectEdit :=
      [.links "Initialize" (.add ⟨⟨3, 1⟩, ⟨1, 1⟩, .value .uint64⟩),
       .links "Initialize" (.add ⟨⟨3, 1⟩, ⟨1, 0⟩, .value .uint64⟩),
       .removeNode "Initialize" 0, .removeNode "Initialize" 3,
       .nodes "Initialize" (.add (.ofPayload "Goto" .jump))]
    (drawnBranch.structuralFindings = [] ∧ drawnBranch.Anchored) ∧ (∀ e ∈ es, e.draws = true) ∧
      (drawnBranch.run es).structuralFindings = [] := by
  have hp : drawnBranch.structuralFindings = [] ∧ drawnBranch.Anchored := by decide +kernel
  exact ⟨hp, by decide, structuralFindings_run (.inr hp) (by decide)⟩

end Project

end FlowBasic
