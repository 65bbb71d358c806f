import FlowBasic.Proofs.RefusedEdits

namespace FlowBasic

/-- The state that an edit in place ends with, accepted or refused. -/
def InPlace.leaves {ε σ α : Type} (m : InPlace ε σ α) (s : σ) : σ :=
  match m s with
  | .ok _ s' => s'
  | .error _ s' => s'

namespace NodeEdit

theorem perform_eq_ok_iff {e : NodeEdit} {m m' : NodeMap} {id : NodeId} :
    e.perform m = .ok id m' ↔ e.apply m = .ok (m', id) := by
  rw [perform_eq, InPlace.atomic]
  cases e.apply m with
  | ok r => simp [Prod.ext_iff, and_comm]
  | error err => simp

theorem perform_eq_error_iff {e : NodeEdit} {m m' : NodeMap} {err : NodeError} :
    e.perform m = .error err m' ↔ e.apply m = .error err ∧ m' = m := by
  rw [perform_eq, InPlace.atomic]
  cases e.apply m with
  | ok r => simp
  | error err' => simp [eq_comm]

theorem leaves_perform (e : NodeEdit) (m : NodeMap) : e.perform.leaves m = e.applyD m := by
  rw [perform_eq, InPlace.leaves, InPlace.atomic, applyD]
  cases e.apply m <;> rfl

end NodeEdit

namespace NodeMap

/-- Edits in place, one after the other; a refused edit does not end the run. -/
def run (m : NodeMap) (es : List NodeEdit) : NodeMap := es.foldl (fun m e => e.perform.leaves m) m

theorem run_cons (m : NodeMap) (e : NodeEdit) (es : List NodeEdit) :
    m.run (e :: es) = (e.perform.leaves m).run es := rfl

theorem eq_last_of_le {id : NodeId} (h : 4294967295 ≤ id) : id = 4294967295 := by
  have hbound := id.toNat_lt
  have hlast : (4294967295 : NodeId).toNat = 4294967295 := rfl
  rw [UInt32.le_iff_toNat_le, hlast] at h
  rw [← UInt32.toNat_inj, hlast]
  omega

/-- Ids run out only after the last one, which then is the largest. -/
theorem next_eq_error_iff {m : NodeMap} {err : NodeError} :
    m.next = .error err ↔ 4294967295 ∈ m.ids ∧ err = .idsExhausted 4294967295 := by
  cases hmax : m.maxId? with
  | none =>
    have hempty : m.ids = [] := List.getLast?_eq_none_iff.mp hmax
    simp [next, hmax, hempty, UInt32.size]
  | some last =>
    have hfull : 4294967295 ∈ m.ids ↔ last = 4294967295 := by
      constructor
      · intro hmem
        exact eq_last_of_le (le_of_maxId? hmax _ hmem)
      · intro heq
        exact heq ▸ List.mem_of_getLast? hmax
    rw [next, hmax, hfull, Option.getD_some]
    by_cases hroom : last.toNat + 1 < UInt32.size
    · have hne : last ≠ 4294967295 := by
        rintro rfl
        exact absurd hroom (by decide)
      simp [hroom, hne]
    · have heq : last = 4294967295 := by
        apply eq_last_of_le
        have hlast : (4294967295 : NodeId).toNat = 4294967295 := rfl
        rw [UInt32.size] at hroom
        rw [UInt32.le_iff_toNat_le, hlast]
        omega
      simp [heq, UInt32.size, eq_comm]

theorem entries_insert_next {m : NodeMap} {id : NodeId} (h : m.next = .ok id) (n : Node) :
    (m.insert id n).entries = m.entries ++ [(id, n)] :=
  put_of_forall_lt (fun e he => lt_next h e.1 (List.mem_map_of_mem he)) n

theorem erase_insert_next {m : NodeMap} {id : NodeId} (h : m.next = .ok id) (n : Node) :
    (m.insert id n).erase id = m := by
  have hold : m.entries.filter (fun e => e.1 ≠ id) = m.entries := by
    apply List.filter_eq_self.mpr
    intro e he
    have hlt := lt_next h e.1 (List.mem_map_of_mem he)
    simpa using fun heq : e.1 = id => UInt32.lt_irrefl id (heq ▸ hlt)
  apply NodeMap.ext
  simp only [erase, entries_insert_next h, List.filter_append, hold]
  simp

/-- What one edit can do to a node map. -/
inductive Step (m : NodeMap) : NodeEdit → NodeMap → Prop
  | refused (e : NodeEdit) : Step m e m
  | added {n : Node} {id : NodeId} (h : m.next = .ok id) : Step m (.add n) (m.insert id n)
  /-- A node is changed, but not in its name and lock. -/
  | changed (e : NodeEdit) {id : NodeId} {x y : Node} (hx : m.get? id = some x)
      (hname : y.name = x.name) (hlocked : y.locked = x.locked) : Step m e (m.insert id y)
  | deleted {id : NodeId} {x : Node} (hx : m.get? id = some x) (hfree : x.locked = false) :
      Step m (.delete id) (m.erase id)

/-- An edit of one node is a step when it leaves the name and the lock alone. -/
theorem step_of_change {m : NodeMap} {e : NodeEdit} {id : NodeId} {change : Node → Node}
    {result : NodeMap × NodeId}
    (h : (do
      let n ← m.find id
      return (m.insert id (change n), id) : Except NodeError (NodeMap × NodeId)) = .ok result)
    (hname : ∀ n, (change n).name = n.name) (hlocked : ∀ n, (change n).locked = n.locked) :
    m.Step e result.1 := by
  obtain ⟨x, hx, h⟩ := exists_ok_of_bind h
  obtain rfl := Except.ok.inj h
  exact .changed e (get?_of_find hx) (hname x) (hlocked x)

theorem step_of_apply {m : NodeMap} {e : NodeEdit} {result : NodeMap × NodeId}
    (h : e.apply m = .ok result) : m.Step e result.1 := by
  cases e with
  | add n =>
    obtain ⟨id, hid, h⟩ := exists_ok_of_bind h
    obtain rfl := Except.ok.inj h
    exact .added hid
  | move id position => exact step_of_change h (fun _ => rfl) fun _ => rfl
  | setEdit id edit => exact step_of_change h (fun _ => rfl) fun _ => rfl
  | replace id payload => exact step_of_change h (fun _ => rfl) fun _ => rfl
  | setLiteral id slot v =>
    obtain ⟨x, hx, h⟩ := exists_ok_of_bind h
    obtain ⟨payload, _, h⟩ := exists_ok_of_bind h
    obtain rfl := Except.ok.inj h
    exact .changed _ (get?_of_find hx) rfl rfl
  | delete id =>
    obtain ⟨x, hx, h⟩ := exists_ok_of_bind h
    split at h
    · cases h
    · next hfree =>
      obtain rfl := Except.ok.inj h
      exact .deleted (get?_of_find hx) (by simpa using hfree)

theorem step_leaves (m : NodeMap) (e : NodeEdit) : m.Step e (e.perform.leaves m) := by
  rw [NodeEdit.leaves_perform, NodeEdit.applyD]
  cases happly : e.apply m with
  | ok result => exact step_of_apply happly
  | error err => exact .refused e

/-- The map has a node of this id, with the name and the lock that the node here has. -/
def Keeps (m : NodeMap) (id : NodeId) (x : Node) : Prop :=
  ∃ y, m.get? id = some y ∧ y.name = x.name ∧ y.locked = x.locked

theorem keeps_of_get? {m : NodeMap} {id : NodeId} {x : Node} (h : m.get? id = some x) : m.Keeps id x :=
  ⟨x, h, rfl, rfl⟩

/-- One edit keeps a node, or deletes it by its id; a node that is locked it keeps. -/
theorem Step.keeps_or_deletes {m m' : NodeMap} {e : NodeEdit} (h : m.Step e m') {id : NodeId} {x : Node}
    (hx : m.Keeps id x) :
    m'.Keeps id x ∨ e = .delete id ∧ x.locked = false ∧ m'.get? id = none := by
  obtain ⟨y, hy, hname, hlocked⟩ := hx
  cases h with
  | refused => exact .inl ⟨y, hy, hname, hlocked⟩
  | @added n new hnew =>
    have hne : id ≠ new := by
      intro heq
      rw [heq, get?_next hnew] at hy
      cases hy
    exact .inl ⟨y, by rw [get?_insert, if_neg hne, hy], hname, hlocked⟩
  | @changed _ u z w hz hzname hzlocked =>
    left
    by_cases hid : id = u
    · rw [hid, hz] at hy
      obtain rfl := Option.some.inj hy
      exact ⟨w, by rw [get?_insert, if_pos hid], hzname.trans hname, hzlocked.trans hlocked⟩
    · exact ⟨y, by rw [get?_insert, if_neg hid, hy], hname, hlocked⟩
  | @deleted u z hz hfree =>
    by_cases hid : id = u
    · subst hid
      rw [hz] at hy
      obtain rfl := Option.some.inj hy
      exact .inr ⟨rfl, hlocked.symm.trans hfree, by rw [get?_erase, if_pos rfl]⟩
    · exact .inl ⟨y, by rw [get?_erase, if_neg hid, hy], hname, hlocked⟩

theorem Keeps.run {m : NodeMap} {id : NodeId} {x : Node} (hx : m.Keeps id x) {es : List NodeEdit}
    (hes : .delete id ∉ es ∨ x.locked = true) : (m.run es).Keeps id x := by
  induction es generalizing m with
  | nil => exact hx
  | cons e es ih =>
    rw [run_cons]
    have hrest : .delete id ∉ es ∨ x.locked = true := by
      rcases hes with hfree | hlocked
      · exact .inl fun hmem => hfree (List.mem_cons_of_mem e hmem)
      · exact .inr hlocked
    rcases (m.step_leaves e).keeps_or_deletes hx with hkept | ⟨rfl, hfree, -⟩
    · exact ih hkept hrest
    · rcases hes with hnone | hlocked
      · exact absurd List.mem_cons_self hnone
      · exact absurd (hlocked.symm.trans hfree) (by decide)

theorem apply_add_eq_ok_iff {m m' : NodeMap} {n : Node} {id : NodeId} :
    (NodeEdit.add n).apply m = .ok (m', id) ↔ m.next = .ok id ∧ m' = m.insert id n := by
  rw [NodeEdit.apply]
  cases m.next with
  | error err => simp [bind, Except.bind]
  | ok new =>
    simp only [bind, Except.bind, pure, Except.pure, Except.ok.injEq, Prod.mk.injEq]
    constructor
    · rintro ⟨rfl, rfl⟩
      exact ⟨rfl, rfl⟩
    · rintro ⟨rfl, rfl⟩
      exact ⟨rfl, rfl⟩

theorem apply_add_eq_error_iff {m : NodeMap} {n : Node} {err : NodeError} :
    (NodeEdit.add n).apply m = .error err ↔ m.next = .error err := by
  rw [NodeEdit.apply]
  cases m.next <;> simp [bind, Except.bind, pure, Except.pure]

theorem apply_delete_insert {m : NodeMap} {n : Node} {id : NodeId} (h : m.next = .ok id)
    (hfree : n.locked = false) : (NodeEdit.delete id).apply (m.insert id n) = .ok (m, id) := by
  have hfind : (m.insert id n).find id = .ok n := by
    rw [find, get?_insert, if_pos rfl]
  simp only [NodeEdit.apply, hfind, bind, Except.bind, hfree, erase_insert_next h]
  rfl

/-- At every point of a history: a node is added behind all that are there, and deleting it at once
restores the map, unless it is locked; it cannot be added exactly when the last id is in use. Whatever
comes next, a node that is there keeps its name and lock, and only the edit that deletes this node
removes it. However the history goes on, a node stays that is locked or never deleted. -/
theorem ids_and_locks_throughout (start : NodeMap) (es : List NodeEdit) :
    let m := start.run es
    (∀ n id m', (NodeEdit.add n).perform m = .ok id m' →
      (∀ x ∈ m.ids, x < id) ∧ m'.entries = m.entries ++ [(id, n)] ∧
        (n.locked = false → (NodeEdit.delete id).perform m' = .ok id m)) ∧
    (∀ n err m', (NodeEdit.add n).perform m = .error err m' ↔
      4294967295 ∈ m.ids ∧ err = .idsExhausted 4294967295 ∧ m' = m) ∧
    (∀ (e : NodeEdit) id x, m.get? id = some x →
      (∀ y, (e.perform.leaves m).get? id = some y → y.name = x.name ∧ y.locked = x.locked) ∧
        ((e.perform.leaves m).get? id = none → e = .delete id ∧ x.locked = false)) ∧
    ∀ fs id x, m.get? id = some x → .delete id ∉ fs ∨ x.locked = true →
      ∃ y, (m.run fs).get? id = some y ∧ y.name = x.name ∧ y.locked = x.locked := by
  intro m
  refine ⟨?_, ?_, ?_, ?_⟩
  · intro n id m' hadd
    obtain ⟨hnext, rfl⟩ := apply_add_eq_ok_iff.mp (NodeEdit.perform_eq_ok_iff.mp hadd)
    refine ⟨lt_next hnext, entries_insert_next hnext n, ?_⟩
    intro hfree
    exact NodeEdit.perform_eq_ok_iff.mpr (apply_delete_insert hnext hfree)
  · intro n err m'
    rw [NodeEdit.perform_eq_error_iff, apply_add_eq_error_iff, next_eq_error_iff, and_assoc]
  · intro e id x hx
    rcases (m.step_leaves e).keeps_or_deletes (keeps_of_get? hx) with ⟨z, hz, hsame⟩ | ⟨rfl, hfree, hnone⟩
    · refine ⟨?_, ?_⟩
      · intro y hy
        obtain rfl := Option.some.inj (hz.symm.trans hy)
        exact hsame
      · intro hnone
        rw [hz] at hnone
        cases hnone
    · refine ⟨?_, fun _ => ⟨rfl, hfree⟩⟩
      intro y hy
      rw [hnone] at hy
      cases hy
  · intro fs id x hx hfs
    exact (keeps_of_get? hx).run hfs

end NodeMap

end FlowBasic
