import FlowBasic.InPlace
import FlowBasic.Proofs.StructuralEdits

namespace FlowBasic

namespace InPlace

variable {ε δ σ τ α : Type}

/-- An edit that writes once, at its end, and nothing when it refuses. -/
def atomic (f : σ → Except ε (σ × α)) : InPlace ε σ α := fun s =>
  match f s with
  | .ok (s', a) => .ok a s'
  | .error e => .error e s

/-- An edit in place and the same edit as a function agree, and one that is refused has written
nothing. -/
def AllOrNothing (m : InPlace ε σ α) (f : σ → Except ε (σ × α)) : Prop :=
  ∀ s, (∀ e s', m s = .error e s' → s' = s ∧ f s = .error e) ∧
    ∀ a s', m s = .ok a s' → f s = .ok (s', a)

theorem allOrNothing_atomic (f : σ → Except ε (σ × α)) :
    (atomic f).AllOrNothing f := by
  intro s
  cases h : f s with
  | ok r => simp [atomic, h, Prod.ext_iff, and_comm, eq_comm]
  | error e => simp [atomic, h, eq_comm]

theorem rephrase_atomic (g : δ → ε) (f : σ → Except δ (σ × α)) :
    rephrase g (atomic f) = atomic fun s => (f s).mapError g := by
  funext s
  simp only [rephrase, atomic]
  cases f s <;> rfl

/-- Putting an unchanged part back changes nothing, so an atomic edit of a part is one of the whole. -/
theorem within_atomic {part : σ → τ} {put : σ → τ → σ} (hput : ∀ s, put s (part s) = s)
    (f : τ → Except ε (τ × α)) :
    within part put (atomic f) = atomic fun s => (f (part s)).map fun r => (put s r.1, r.2) := by
  funext s
  simp only [within, atomic]
  cases f (part s) with
  | ok r => rfl
  | error e => exact congrArg _ (hput s)

theorem borrow_atomic {find : σ → Except ε τ} {put : σ → τ → σ}
    (hput : ∀ s t, find s = .ok t → put s t = s) (f : τ → Except ε (τ × α)) :
    borrow find put (atomic f) = atomic fun s => do
      let t ← find s
      let r ← f t
      return (put s r.1, r.2) := by
  funext s
  simp only [borrow, bind, EStateM.bind, ask, atomic]
  cases hfind : find s with
  | error e => rfl
  | ok t =>
    simp only [Except.bind, within, atomic]
    cases f t with
    | ok r => rfl
    | error e => exact congrArg _ (hput s t hfind)

theorem get_apply (s : σ) : (get : InPlace ε σ σ) s = .ok s s := rfl

theorem modify_eq (g : σ → σ) : (modify g : InPlace ε σ Unit) = atomic fun s => .ok (g s, ()) := rfl

theorem atomic_map (f : σ → Except ε (σ × α)) {β : Type} (g : α → β) :
    (do return g (← atomic f) : InPlace ε σ β) = atomic fun s => (f s).map fun r => (r.1, g r.2) := by
  funext s
  simp only [bind, EStateM.bind, atomic]
  cases f s <;> rfl

theorem atomic_then (f : σ → Except ε σ) {β : Type} (b : β) :
    (do atomic fun s => (f s).map (·, ()); return b : InPlace ε σ β) =
      atomic fun s => (f s).map (·, b) := by
  funext s
  simp only [bind, EStateM.bind, atomic]
  cases f s <;> rfl

end InPlace

theorem Table.insert_of_get? {α : Type} {t : Table α} {k : String} {v : α} (h : t.get? k = some v) :
    t.insert k v = t := by
  obtain ⟨earlier, later, hentries, hput⟩ := Entries.exists_put_eq h
  exact Table.ext ((hput v).trans hentries.symm)

theorem Table.erase_of_get?_eq_none {α : Type} {t : Table α} {k : String} (h : t.get? k = none) :
    t.erase k = t := by
  have hk : k ∉ t.keys := Table.get?_eq_none_iff.mp h
  refine Table.ext (List.filter_eq_self.mpr fun e he => ?_)
  have hne : e.1 ≠ k := fun heq => hk (heq ▸ List.mem_map_of_mem he)
  simp [hne]

namespace NodeMap

theorem insert_of_get? {m : NodeMap} {id : NodeId} {n : Node} (h : m.get? id = some n) :
    m.insert id n = m := by
  obtain ⟨earlier, later, hentries, hput⟩ := exists_put_eq m.sorted h
  exact NodeMap.ext ((hput n).trans hentries.symm)

theorem borrow_atomic {α : Type} (id : NodeId) (f : Node → Except NodeError (Node × α)) :
    borrow id (InPlace.atomic f) = InPlace.atomic fun m => do
      let n ← m.find id
      let r ← f n
      return (m.insert id r.1, r.2) :=
  InPlace.borrow_atomic (fun _ _ hfind => insert_of_get? (get?_of_find hfind)) f

end NodeMap

/-- Writes what a partial function gives and tells whether it gave anything. -/
def attempt {σ : Type} (f : σ → Option σ) : StateM σ Bool := fun s => ((f s).isSome, (f s).getD s)

/-- A write that tells whether it was accepted: what it writes is what the partial function gives, and
turned down it has written nothing. -/
def Guarded {σ : Type} (m : StateM σ Bool) (f : σ → Option σ) : Prop :=
  ∀ s, ((m s).1 = false → (m s).2 = s ∧ f s = none) ∧ ((m s).1 = true → f s = some (m s).2)

theorem guarded_attempt {σ : Type} (f : σ → Option σ) : Guarded (attempt f) f := by
  intro s
  cases h : f s <;> simp [attempt, h]

theorem attempt_map {σ τ : Type} {f : τ → Option τ} {g : σ → Option σ} {wrap : τ → σ} {t : τ} {s : σ}
    (hwrap : wrap t = s) (h : g s = (f t).map wrap) : (attempt f t).map id wrap = attempt g s := by
  simp only [attempt, h]
  cases f t with
  | none => exact congrArg (Prod.mk false) hwrap
  | some t' => rfl

theorem overwrite_eq {α : Type} (kind? : Literal → Option α) (v : Option Literal) :
    overwrite kind? v = attempt fun _ => narrow kind? v := by
  unfold overwrite attempt
  cases narrow kind? v <;> rfl

theorem TypedSlot.write_eq (v : Option Literal) : write v = attempt (assign? v) := by
  funext s
  cases s with
  | uint64 c =>
    rw [write, overwrite_eq]
    exact attempt_map rfl rfl
  | string c =>
    rw [write, overwrite_eq]
    exact attempt_map rfl rfl
  | any c => rfl

namespace Operands

variable {α : Type}

/-- The operands with one side replaced; refused for a key that is no side and for a literal of
another kind. -/
def assign? (kind? : Literal → Option α) (key : String) (v : Option Literal) (ops : Operands α) :
    Option (Operands α) :=
  (Side.ofName? key).bind fun side => (narrow kind? v).map (ops.set · side)

theorem set_get (ops : Operands α) (side : Side) : ops.set (ops.get side) side = ops := by
  cases side <;> rfl

theorem write_eq (kind? : Literal → Option α) (key : String) (v : Option Literal) :
    write kind? key v = attempt (assign? kind? key v) := by
  funext ops
  cases hside : Side.ofName? key with
  | none => simp [write, attempt, assign?, hside]
  | some side =>
    simp only [write, hside, overwrite_eq]
    exact attempt_map (ops.set_get side) (by simp [assign?, hside])

/-- Whatever has operands is written to through them. -/
theorem map_write {β : Type} (wrap : Operands α → β) (kind? : Literal → Option α) (key : String)
    (v : Option Literal) (ops : Operands α) {f : β → Option β}
    (h : f (wrap ops) =
      (Side.ofName? key).bind fun side => (narrow kind? v).map fun c => wrap (ops.set c side)) :
    (write kind? key v ops).map id wrap = attempt f (wrap ops) := by
  rw [write_eq]
  refine attempt_map rfl ?_
  rw [h]
  cases hside : Side.ofName? key <;> simp [assign?, hside, Function.comp_def]

end Operands

theorem Operation.write_eq (key : String) (v : Option Literal) :
    write key v = attempt fun o => (Side.ofName? key).bind (o.assign? · v) := by
  funext o
  cases o with
  | uint64 operator ops => exact Operands.map_write _ _ key v ops rfl
  | string operator ops => exact Operands.map_write _ _ key v ops rfl

theorem Condition.write_eq (key : String) (v : Option Literal) :
    write key v = attempt fun c => (Side.ofName? key).bind (c.assign? · v) := by
  funext c
  cases c with
  | uint64 operator ops => exact Operands.map_write _ _ key v ops rfl
  | string operator ops => exact Operands.map_write _ _ key v ops rfl

theorem Payload.writeLiteral_eq (id : NodeId) (slot : String) (v : Option Literal) :
    writeLiteral id slot v = InPlace.atomic fun p => (p.setLiteral id slot v).map (·, ()) := by
  funext p
  cases p with
  | call c =>
    cases hget : c.args.get? slot with
    | none =>
      simp only [writeLiteral, setLiteral, InPlace.atomic, hget]
      rfl
    | some s =>
      simp only [writeLiteral, setLiteral, InPlace.atomic, hget, TypedSlot.write_eq, attempt]
      cases s.assign? v with
      | none =>
        -- the slot is put back as it was
        rw [Option.getD_none, Table.insert_of_get? hget]
        rfl
      | some t => rfl
  | operation o =>
    cases hside : Side.ofName? slot with
    | none =>
      simp only [writeLiteral, setLiteral, InPlace.atomic, hside]
      rfl
    | some side =>
      simp only [writeLiteral, setLiteral, InPlace.atomic, hside, Operation.write_eq, attempt,
        Option.bind_some]
      cases o.assign? side v <;> rfl
  | condition c =>
    cases hside : Side.ofName? slot with
    | none =>
      simp only [writeLiteral, setLiteral, InPlace.atomic, hside]
      rfl
    | some side =>
      simp only [writeLiteral, setLiteral, InPlace.atomic, hside, Condition.write_eq, attempt,
        Option.bind_some]
      cases c.assign? side v <;> rfl
  | _ => rfl

theorem NodeMap.borrow_modify (id : NodeId) (g : Node → Node) :
    (do borrow id (modify g); return id : InPlace NodeError NodeMap NodeId) =
      InPlace.atomic fun m => do
        let n ← m.find id
        return (m.insert id (g n), id) := by
  rw [InPlace.modify_eq, borrow_atomic]
  refine (InPlace.atomic_map _ _).trans ?_
  congr 1
  funext m
  cases m.find id <;> rfl

theorem NodeEdit.perform_eq (e : NodeEdit) : e.perform = InPlace.atomic (apply · e) := by
  cases e with
  | add n =>
    funext m
    simp only [perform, apply, bind, EStateM.bind, InPlace.ask, InPlace.atomic]
    cases m.next <;> rfl
  | move id position => exact NodeMap.borrow_modify id _
  | setEdit id edit => exact NodeMap.borrow_modify id _
  | replace id payload => exact NodeMap.borrow_modify id _
  | setLiteral id slot v =>
    rw [perform, Payload.writeLiteral_eq, InPlace.within_atomic fun _ => rfl, NodeMap.borrow_atomic]
    refine (InPlace.atomic_map _ _).trans ?_
    congr 1
    funext m
    simp only [apply]
    cases m.find id with
    | error e => rfl
    | ok n =>
      simp only [bind, Except.bind]
      cases n.payload.setLiteral id slot v <;> rfl
  | delete id =>
    funext m
    simp only [perform, apply, bind, EStateM.bind, InPlace.ask, InPlace.atomic]
    cases m.find id with
    | error e => rfl
    | ok n =>
      simp only [Except.bind]
      cases n.locked <;> rfl

theorem findIdx?_congr {α : Type} {p q : α → Bool} {xs : List α} (h : ∀ x ∈ xs, p x = q x) :
    xs.findIdx? p = xs.findIdx? q := by
  induction xs with
  | nil => rfl
  | cons x xs ih =>
    rw [List.findIdx?_cons, List.findIdx?_cons, h x List.mem_cons_self,
      ih fun y hy => h y (List.mem_cons_of_mem x hy)]

namespace Link

theorem replaceSource_eq (l : Link) (ls : List Link) :
    replaceSource l ls = (ls.findIdx? (·.source = l.source)).map (ls.set · l) := by
  induction ls with
  | nil => rfl
  | cons m ms ih =>
    by_cases h : m.source = l.source
    · simp [replaceSource, h, List.findIdx?_cons]
    · simp [replaceSource, h, List.findIdx?_cons, ih, Function.comp_def]

theorem replaceSink_eq (l : Link) (ls : List Link) :
    replaceSink l ls = (ls.findIdx? (·.sink = l.sink)).map (ls.set · l) := by
  induction ls with
  | nil => rfl
  | cons m ms ih =>
    by_cases h : m.sink = l.sink
    · simp [replaceSink, h, List.findIdx?_cons]
    · simp [replaceSink, h, List.findIdx?_cons, ih, Function.comp_def]

theorem evictSink_eq (l : Link) (ls : List Link) :
    evictSink l ls = (ls.findIdx? fun m => m ≠ l ∧ m.sink = l.sink).elim ls ls.eraseIdx := by
  induction ls with
  | nil => rfl
  | cons m ms ih =>
    by_cases h : m ≠ l ∧ m.sink = l.sink
    · simp [evictSink, h, List.findIdx?_cons]
    · rw [evictSink, if_neg h, ih, List.findIdx?_cons]
      cases hi : ms.findIdx? fun m => m ≠ l ∧ m.sink = l.sink <;> simp [h]

/-- Places can be told by what stands on them where no other place has the same. -/
theorem rival?_eq {l : Link} {slot : Option Nat} {ls : List Link} {q : Link → Bool}
    (h : ∀ i m, ls[i]? = some m → (decide (m.sink = l.sink) && decide (some i ≠ slot)) = q m) :
    l.rival? slot ls = ls.findIdx? q := by
  have hzip : ls = ls.zipIdx.map Prod.fst := by simp
  conv_rhs => rw [hzip, List.findIdx?_map]
  refine findIdx?_congr fun m hm => ?_
  exact h m.2 m.1 (List.mem_zipIdx_iff_getElem?.mp hm)

theorem rival?_none (l : Link) (ls : List Link) :
    l.rival? none ls = ls.findIdx? (·.sink = l.sink) :=
  rival?_eq fun _ _ _ => by simp

theorem rival?_set {l : Link} {ls : List Link} (hl : l ∉ ls) {i : Nat} (hi : i < ls.length) :
    l.rival? (some i) (ls.set i l) =
      (ls.set i l).findIdx? fun m => m ≠ l ∧ m.sink = l.sink := by
  refine rival?_eq fun j m hm => ?_
  have hplace : j = i ↔ m = l := by
    constructor
    · rintro rfl
      rw [List.getElem?_set_self hi] at hm
      exact (Option.some.inj hm).symm
    · rintro rfl
      by_contra hji
      rw [List.getElem?_set_ne (Ne.symm hji)] at hm
      exact hl (List.mem_of_getElem? hm)
  by_cases hm : m = l <;> simp [hm, hplace]

theorem takeSource_run (l : Link) (ls : List Link) :
    l.takeSource ls =
      .ok (ls.findIdx? (·.source = l.source))
        ((ls.findIdx? (·.source = l.source)).elim ls (ls.set · l)) :=
  rfl

theorem takeSink_some (l : Link) (i : Nat) (ls : List Link) :
    l.takeSink (some i) ls = .ok (some i) ((l.rival? (some i) ls).elim ls ls.eraseIdx) := by
  simp only [takeSink, bind, EStateM.bind, InPlace.get_apply]
  cases l.rival? (some i) ls <;> rfl

theorem takeSink_none (l : Link) (ls : List Link) :
    l.takeSink none ls = .ok (l.rival? none ls) ((l.rival? none ls).elim ls (ls.set · l)) := by
  simp only [takeSink, bind, EStateM.bind, InPlace.get_apply]
  cases l.rival? none ls <;> rfl

end Link

theorem LinkEdit.perform_add_of_mem {l : Link} {ls : List Link} (hl : l ∈ ls) :
    (add l).perform ls = .error ⟨l⟩ ls := by
  simp only [perform, bind, EStateM.bind, InPlace.get_apply, if_pos hl]
  rfl

/-- The places that the link takes are those that the pure edit gives it. -/
theorem LinkEdit.perform_add_of_notMem {l : Link} {ls : List Link} (hl : l ∉ ls) :
    (add l).perform ls = .ok () (l.place ls) := by
  simp only [perform, bind, EStateM.bind, InPlace.get_apply, if_neg hl, Link.takeSource_run]
  have hreplace := l.replaceSource_eq ls
  cases hsource : ls.findIdx? (·.source = l.source) with
  | none =>
    rw [hsource, Option.map_none] at hreplace
    rw [Link.place, hreplace]
    cases l.isFlow with
    | true => rfl
    | false =>
      rw [Link.replaceSink_eq, ← Link.rival?_none]
      simp only [Option.elim_none, Bool.false_eq_true, ↓reduceIte, EStateM.bind, Link.takeSink_none]
      cases l.rival? none ls <;> rfl
  | some i =>
    rw [hsource, Option.map_some] at hreplace
    rw [Link.place, hreplace]
    cases l.isFlow with
    | true => rfl
    | false =>
      have hi : i < ls.length := (List.findIdx?_eq_some_iff_getElem.mp hsource).1
      simp only [Option.elim_some, Bool.false_eq_true, ↓reduceIte, EStateM.bind, Link.takeSink_some,
        Link.rival?_set hl hi, Link.evictSink_eq]
      rfl

theorem LinkEdit.perform_eq (e : LinkEdit) :
    e.perform = InPlace.atomic fun ls => (e.apply ls).map (·, ()) := by
  funext ls
  cases e with
  | add l =>
    by_cases hl : l ∈ ls
    · rw [perform_add_of_mem hl, InPlace.atomic, apply, if_pos hl]
      rfl
    · rw [perform_add_of_notMem hl, InPlace.atomic, apply, if_neg hl]
      rfl
  | remove l =>
    have hindex : ls.erase l = (ls.findIdx? (· = l)).elim ls ls.eraseIdx := by
      rw [List.erase_eq_eraseIdx, List.idxOf?]
      cases ls.findIdx? (· == l) <;> rfl
    simp only [InPlace.atomic, apply, hindex]
    rfl
  | removeRelated id => rfl

namespace Routine

theorem performNodes_eq (e : NodeEdit) : performNodes e = InPlace.atomic (updateNodes · e) := by
  rw [performNodes, NodeEdit.perform_eq, InPlace.rephrase_atomic, InPlace.within_atomic fun _ => rfl]
  congr 1
  funext r
  simp only [updateNodes]
  cases e.apply r.nodes <;> rfl

theorem writeLinks_eq (e : LinkEdit) :
    InPlace.within links ({ · with links := · }) (e.perform.rephrase .duplicate) =
      InPlace.atomic fun r : Routine => ((e.apply r.links).mapError EditError.duplicate).map
        fun links => ({ r with links }, ()) := by
  rw [LinkEdit.perform_eq, InPlace.rephrase_atomic, InPlace.within_atomic fun _ => rfl]
  congr 1
  funext r
  cases e.apply r.links <;> rfl

theorem performLinks_eq (scope : Scope) (e : LinkEdit) :
    performLinks scope e = InPlace.atomic fun r => (r.updateLinks scope e).map (·, ()) := by
  funext r
  simp only [performLinks, writeLinks_eq, updateLinks]
  cases e with
  | add l =>
    simp only [InPlace.ask, InPlace.atomic, bind, EStateM.bind]
    cases r.checkLink scope l with
    | error f => rfl
    | ok u =>
      simp only [Except.mapError]
      cases (LinkEdit.add l).apply r.links <;> rfl
  | remove l => rfl
  | removeRelated id => rfl

theorem performRemoval_eq (id : NodeId) :
    performRemoval id = InPlace.atomic fun r => (r.removeNode id).map (·, ()) := by
  funext r
  simp only [performRemoval, performNodes_eq, writeLinks_eq, removeNode, updateNodes, InPlace.atomic, bind,
    EStateM.bind]
  cases (NodeEdit.delete id).apply r.nodes <;> rfl

end Routine

namespace Project

theorem setRoutine_of_routine {p : Project} {name : String} {r : Routine} (h : p.routine name = .ok r) :
    p.setRoutine name r = p := by
  rw [setRoutine, Table.insert_of_get? (get?_of_routine h)]

theorem borrow_atomic {α : Type} (name : String) (f : Routine → Except EditError (Routine × α)) :
    borrow name (InPlace.atomic f) = InPlace.atomic fun p => do
      let r ← p.routine name
      let q ← f r
      return (p.setRoutine name q.1, q.2) :=
  InPlace.borrow_atomic (fun _ _ h => setRoutine_of_routine h) f

theorem performAdd_eq (text : String) (isProcess : Bool) :
    performAdd text isProcess = InPlace.atomic (addRoutine · text isProcess) := by
  funext p
  simp only [performAdd, addRoutine, InPlace.ask, InPlace.atomic, bind, EStateM.bind, InPlace.get_apply]
  cases RoutineName.normalize isProcess text with
  | error e => rfl
  | ok name =>
    simp only [Except.bind]
    cases p.routines.contains name <;> rfl

theorem performRename_eq (old text : String) :
    performRename old text = InPlace.atomic (renameRoutine · old text) := by
  funext p
  cases hreserved : isReserved old with
  | true =>
    simp only [performRename, renameRoutine, InPlace.atomic, hreserved, ↓reduceIte]
    rfl
  | false =>
    simp only [performRename, renameRoutine, InPlace.atomic, InPlace.ask, hreserved, Bool.false_eq_true,
      ↓reduceIte, bind, EStateM.bind]
    cases p.routine old with
    | error e => rfl
    | ok r =>
      simp only [Except.bind]
      cases RoutineName.normalize r.isProcess text with
      | error e => rfl
      | ok new =>
        simp only [InPlace.get_apply]
        cases p.routines.contains new <;> rfl

/-- A name that is missing is erased in vain, so the refusal that follows comes after no write. -/
theorem performDelete_eq (name : String) :
    performDelete name = InPlace.atomic (deleteRoutine · name) := by
  funext p
  cases hreserved : isReserved name with
  | true =>
    simp only [performDelete, deleteRoutine, InPlace.atomic, hreserved, ↓reduceIte]
    rfl
  | false =>
    simp only [performDelete, deleteRoutine, InPlace.atomic, InPlace.ask, hreserved, Bool.false_eq_true,
      ↓reduceIte, bind, EStateM.bind, InPlace.get_apply]
    cases hroutine : p.routine name with
    | error e =>
      have hget : p.routines.get? name = none := by
        unfold routine at hroutine
        cases hget : p.routines.get? name with
        | none => rfl
        | some r => simp [hget] at hroutine
      exact congrArg (fun routines => EStateM.Result.error e { p with routines })
        (Table.erase_of_get?_eq_none hget)
    | ok r => rfl

theorem performLinks_eq (function : String) (e : LinkEdit) :
    performLinks function e = InPlace.atomic fun p => (p.updateLinks function e).map (·, ()) := by
  funext p
  cases e with
  | add l =>
    simp only [performLinks, updateLinks, Routine.updateLinks, Routine.writeLinks_eq, borrow_atomic,
      InPlace.ask, InPlace.atomic, bind, EStateM.bind]
    cases hroutine : p.routine function with
    | error e => rfl
    | ok r =>
      simp only [Except.bind]
      cases r.checkLink p.scope l with
      | error f => rfl
      | ok u =>
        simp only [Except.mapError, hroutine]
        cases (LinkEdit.add l).apply r.links <;> rfl
  | remove | removeRelated =>
    simp only [performLinks, updateLinks, Routine.updateLinks, Routine.writeLinks_eq, borrow_atomic,
      InPlace.atomic, bind]
    cases p.routine function <;> rfl

/-- An edit of one routine that tells nothing but that it is done. -/
theorem borrow_atomic_then {β : Type} (name : String) (f : Routine → Except EditError Routine) (b : β) :
    (do borrow name (InPlace.atomic fun r => (f r).map (·, ())); return b :
        InPlace EditError Project β) =
      InPlace.atomic fun p => (do
        let r ← p.routine name
        let r ← f r
        return p.setRoutine name r : Except EditError Project).map (·, b) := by
  rw [borrow_atomic]
  refine (InPlace.atomic_map _ _).trans (congrArg InPlace.atomic ?_)
  funext p
  cases p.routine name with
  | error e => rfl
  | ok r =>
    simp only [bind, Except.bind]
    cases f r <;> rfl

end Project

theorem ProjectEdit.perform_eq (e : ProjectEdit) : e.perform = InPlace.atomic (apply · e) := by
  cases e with
  | addRoutine text isProcess =>
    rw [perform, Project.performAdd_eq]
    exact InPlace.atomic_map _ _
  | renameRoutine old text =>
    rw [perform, Project.performRename_eq]
    exact InPlace.atomic_map _ _
  | deleteRoutine name =>
    rw [perform, Project.performDelete_eq]
    exact InPlace.atomic_map _ _
  | declareArgument routine name t =>
    exact Project.borrow_atomic_then routine (fun r => .ok { r with args := r.args.insert name t }) _
  | declareVariable routine name t =>
    exact Project.borrow_atomic_then routine (fun r => .ok { r with vars := r.vars.insert name t }) _
  | nodes routine e =>
    rw [perform, Routine.performNodes_eq, Project.borrow_atomic]
    exact InPlace.atomic_map _ _
  | links routine e =>
    rw [perform, Project.performLinks_eq]
    exact InPlace.atomic_then _ _
  | linksAlone routine e =>
    rw [perform, Routine.performLinks_eq]
    exact Project.borrow_atomic_then _ _ _
  | addNode routine name payload position =>
    rw [perform, Routine.performNodes_eq, Project.borrow_atomic]
    exact InPlace.atomic_map _ _
  | removeNode routine id =>
    rw [perform, Routine.performRemoval_eq]
    exact Project.borrow_atomic_then _ _ _
  | merge other overwrite => rfl

theorem NodeEdit.applyD_of_perform (e : NodeEdit) (m : NodeMap) :
    (∀ err m', e.perform m = .error err m' → e.applyD m = m) ∧
      ∀ id m', e.perform m = .ok id m' → e.applyD m = m' := by
  rw [perform_eq]
  refine ⟨fun err m' h => ?_, fun id m' h => ?_⟩
  · rw [applyD, ((InPlace.allOrNothing_atomic _ m).1 err m' h).2]
  · rw [applyD, (InPlace.allOrNothing_atomic _ m).2 id m' h]

theorem LinkEdit.applyD_of_perform (e : LinkEdit) (ls : List Link) :
    (∀ err ls', e.perform ls = .error err ls' → e.applyD ls = ls) ∧
      ∀ ls', e.perform ls = .ok () ls' → e.applyD ls = ls' := by
  rw [perform_eq, InPlace.atomic, applyD]
  cases e.apply ls with
  | ok ms =>
    refine ⟨fun err ls' h => (by cases h), fun ls' h => ?_⟩
    cases h
    rfl
  | error err => exact ⟨fun _ _ _ => rfl, fun ls' h => (by cases h)⟩

/-- Whatever is refused, a literal by its slot or an edit of nodes, links, a routine or a project, the
state is the one there was before; and an edit that cannot be refused does nothing where the one that
can is, and the same otherwise. -/
theorem refused_edits_write_nothing :
    (∀ v, Guarded (TypedSlot.write v) (TypedSlot.assign? v)) ∧
    (∀ (α : Type) (kind? : Literal → Option α) key v,
      Guarded (Operands.write kind? key v) (Operands.assign? kind? key v)) ∧
    (∀ e : NodeEdit, e.perform.AllOrNothing (NodeEdit.apply · e)) ∧
    (∀ e : LinkEdit, e.perform.AllOrNothing fun ls => (e.apply ls).map (·, ())) ∧
    (∀ e, (Routine.performNodes e).AllOrNothing (Routine.updateNodes · e)) ∧
    (∀ scope e, (Routine.performLinks scope e).AllOrNothing fun r =>
      (r.updateLinks scope e).map (·, ())) ∧
    (∀ id, (Routine.performRemoval id).AllOrNothing fun r => (r.removeNode id).map (·, ())) ∧
    (∀ e : ProjectEdit, e.perform.AllOrNothing (ProjectEdit.apply · e)) ∧
    (∀ (e : NodeEdit) m, (∀ err m', e.perform m = .error err m' → e.applyD m = m) ∧
      ∀ id m', e.perform m = .ok id m' → e.applyD m = m') ∧
    (∀ (e : LinkEdit) ls, (∀ err ls', e.perform ls = .error err ls' → e.applyD ls = ls) ∧
      ∀ ls', e.perform ls = .ok () ls' → e.applyD ls = ls') := by
  refine ⟨fun v => ?_, fun α kind? key v => ?_, fun e => ?_, fun e => ?_, fun e => ?_,
    fun scope e => ?_, fun id => ?_, fun e => ?_, NodeEdit.applyD_of_perform,
    LinkEdit.applyD_of_perform⟩
  · exact TypedSlot.write_eq v ▸ guarded_attempt _
  · exact Operands.write_eq kind? key v ▸ guarded_attempt _
  · exact e.perform_eq ▸ InPlace.allOrNothing_atomic _
  · exact e.perform_eq ▸ InPlace.allOrNothing_atomic _
  · exact Routine.performNodes_eq e ▸ InPlace.allOrNothing_atomic _
  · exact Routine.performLinks_eq scope e ▸ InPlace.allOrNothing_atomic _
  · exact Routine.performRemoval_eq id ▸ InPlace.allOrNothing_atomic _
  · exact e.perform_eq ▸ InPlace.allOrNothing_atomic _

end FlowBasic
