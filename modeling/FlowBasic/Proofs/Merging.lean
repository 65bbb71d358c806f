import FlowBasic.Proofs.CalleeArity
import FlowBasic.Proofs.RefusedEdits

namespace FlowBasic

namespace Table

variable {α : Type}

/-- Names that are inserted follow those that are there, in their order, unless they are there already. -/
theorem keys_foldl_insert {es : List (String × α)} (hes : (es.map Prod.fst).Nodup) (t : Table α) :
    (es.foldl (fun t e => t.insert e.1 e.2) t).keys =
      t.keys ++ (es.map Prod.fst).filter (· ∉ t.keys) := by
  induction es generalizing t with
  | nil => simp
  | cons e es ih =>
    rw [List.map_cons, List.nodup_cons] at hes
    rw [List.foldl_cons, ih hes.2, keys_insert, List.map_cons]
    split
    · next hold => rw [List.filter_cons_of_neg (by simpa using hold)]
    · next hnew =>
      have hrest : (es.map Prod.fst).filter (· ∉ t.keys ++ [e.1]) =
          (es.map Prod.fst).filter (· ∉ t.keys) := by
        apply List.filter_congr
        intro k hk
        have hne : k ≠ e.1 := fun heq => hes.1 (heq ▸ hk)
        simp [hne]
      rw [List.filter_cons_of_pos (by simpa using hnew), hrest, List.append_assoc]
      rfl

theorem get?_foldl_insert_of_mem {es : List (String × α)} (hes : (es.map Prod.fst).Nodup) {k : String} {v : α}
    (h : (k, v) ∈ es) (t : Table α) : (es.foldl (fun t e => t.insert e.1 e.2) t).get? k = some v := by
  induction es generalizing t with
  | nil => cases h
  | cons e es ih =>
    rw [List.map_cons, List.nodup_cons] at hes
    rw [List.foldl_cons]
    rcases List.mem_cons.mp h with rfl | h
    · rw [get?_foldl_insert hes.1, get?_insert, if_pos rfl]
    · exact ih hes.2 h _

theorem foldl_insert_of_forall {es : List (String × α)} {t : Table α}
    (h : ∀ e ∈ es, t.get? e.1 = some e.2) : es.foldl (fun t e => t.insert e.1 e.2) t = t := by
  induction es with
  | nil => rfl
  | cons e es ih =>
    rw [List.foldl_cons, insert_of_get? (h e List.mem_cons_self)]
    exact ih fun f hf => h f (List.mem_cons_of_mem e hf)

end Table

namespace Project

/-- Takes over one routine, unless there is one of its name and it is not to be overwritten. -/
def takeOver (overwrite : Bool) (s : Table Routine × List String) (e : String × Routine) :
    Table Routine × List String :=
  if s.1.contains e.1 && !overwrite then s else (s.1.insert e.1 e.2, s.2 ++ [e.1])

/-- A merge that goes routine by routine and looks for each name in the table as it has grown. -/
def mergeInTurn (p q : Project) (overwrite : Bool) : Project × List String :=
  let s := q.routines.entries.foldl (takeOver overwrite) (p.routines, [])
  ({ p with routines := s.1 }, s.2)

/-- What has been taken over before does not matter to the names that are still to come. -/
theorem foldl_takeOver {es : List (String × Routine)} (hes : (es.map Prod.fst).Nodup) (overwrite : Bool)
    (t : Table Routine) (names : List String) :
    let new := es.filter fun e => overwrite || !t.contains e.1
    es.foldl (takeOver overwrite) (t, names) =
      (new.foldl (fun t e => t.insert e.1 e.2) t, names ++ new.map Prod.fst) := by
  induction es generalizing t names with
  | nil => simp
  | cons e es ih =>
    rw [List.map_cons, List.nodup_cons] at hes
    simp only [List.foldl_cons, takeOver]
    split
    · next hold =>
      simp only [Bool.and_eq_true, Bool.not_eq_true'] at hold
      rw [List.filter_cons_of_neg (by simp [hold])]
      exact ih hes.2 t names
    · next hnew =>
      have hrest : (es.filter fun f => overwrite || !(t.insert e.1 e.2).contains f.1) =
          es.filter fun f => overwrite || !t.contains f.1 := by
        apply List.filter_congr
        intro f hf
        have hne : f.1 ≠ e.1 := fun heq => hes.1 (heq ▸ List.mem_map_of_mem hf)
        rw [Table.contains, Table.contains, Table.get?_insert, if_neg hne]
      have hpos : (overwrite || !t.contains e.1) = true := by
        simpa [or_comm, imp_iff_not_or] using hnew
      simp only [ih hes.2, hrest, List.filter_cons, hpos, if_true, List.foldl_cons, List.map_cons,
        List.append_assoc, List.singleton_append]

theorem merge_eq_mergeInTurn (p q : Project) (overwrite : Bool) :
    p.merge q overwrite = p.mergeInTurn q overwrite := by
  have hrun := foldl_takeOver q.routines.nodup overwrite p.routines []
  simp only [mergeInTurn, hrun]
  rfl

theorem map_fst_taken (p q : Project) (overwrite : Bool) :
    (p.taken q overwrite).map Prod.fst = q.routines.keys.filter fun k => overwrite || k ∉ p.routines.keys := by
  change _ = (q.routines.entries.map Prod.fst).filter _
  rw [taken, List.filter_map]
  congr 2
  funext e
  simp [← Table.contains_iff]

theorem nodup_taken (p q : Project) (overwrite : Bool) : ((p.taken q overwrite).map Prod.fst).Nodup := by
  rw [map_fst_taken]
  exact q.routines.nodup.filter _

theorem keys_merge (p q : Project) (overwrite : Bool) :
    (p.merge q overwrite).1.routines.keys =
      p.routines.keys ++ q.routines.keys.filter (· ∉ p.routines.keys) := by
  rw [merge, Table.keys_foldl_insert (p.nodup_taken q overwrite), map_fst_taken, List.filter_filter]
  congr 2
  funext k
  simp +contextual

theorem get?_merge_of_taken {p q : Project} {overwrite : Bool} {k : String} {r : Routine}
    (hq : q.routines.get? k = some r) (h : overwrite = true ∨ k ∉ p.routines.keys) :
    (p.merge q overwrite).1.routines.get? k = some r := by
  apply Table.get?_foldl_insert_of_mem (p.nodup_taken q overwrite)
  rw [taken, List.mem_filter]
  exact ⟨mem_entries_iff.mpr hq, by simpa [← Table.contains_iff] using h⟩

/-- Of two routines of one name the flag decides which is found. -/
theorem get?_merge_eq_or (p q : Project) (overwrite : Bool) (k : String) :
    (p.merge q overwrite).1.routines.get? k =
      if overwrite then (q.routines.get? k).or (p.routines.get? k)
      else (p.routines.get? k).or (q.routines.get? k) := by
  cases hq : q.routines.get? k with
  | none => simp [get?_merge (Table.get?_eq_none_iff.mp hq)]
  | some r =>
    cases overwrite with
    | true => exact get?_merge_of_taken hq (.inl rfl)
    | false =>
      cases hp : p.routines.get? k with
      | none => exact get?_merge_of_taken hq (.inr (Table.get?_eq_none_iff.mp hp))
      | some r' =>
        have hnot : k ∉ (p.taken q false).map Prod.fst := by
          have hold : k ∈ p.routines.keys := by
            by_contra hmem
            rw [Table.get?_eq_none_iff.mpr hmem] at hp
            cases hp
          simp [map_fst_taken, hold]
        rw [merge, Table.get?_foldl_insert hnot, hp]
        rfl

/-- After a merge nothing is new in the other project: what it has is there, and the same if it was to
overwrite. -/
theorem taken_merge (p q : Project) (overwrite : Bool) :
    (p.merge q overwrite).1.taken q overwrite = if overwrite then q.routines.entries else [] := by
  cases overwrite with
  | true => simp [taken]
  | false =>
    rw [if_neg Bool.false_ne_true, taken, List.filter_eq_nil_iff]
    intro e he
    have hq : e.1 ∈ q.routines.keys := List.mem_map_of_mem he
    have hmerged : e.1 ∈ (p.merge q false).1.routines.keys := by
      rw [keys_merge]
      grind
    simpa using (Table.contains_iff _ _).mpr hmerged

theorem merge_merge (p q : Project) (overwrite : Bool) :
    (p.merge q overwrite).1.merge q overwrite =
      ((p.merge q overwrite).1, if overwrite then q.routines.keys else []) := by
  have hsame : ∀ e ∈ (p.merge q overwrite).1.taken q overwrite,
      (p.merge q overwrite).1.routines.get? e.1 = some e.2 := by
    intro e he
    rw [taken_merge] at he
    cases overwrite with
    | true => exact get?_merge_of_taken (mem_entries_iff.mp he) (.inl rfl)
    | false => cases he
  conv_lhs => rw [merge]
  rw [Table.foldl_insert_of_forall hsame, taken_merge]
  cases overwrite <;> rfl

/-- A merge goes routine by routine over the table as it grows and comes to a union in order: the names
there are, then the new ones of the other project in their order. Of two routines of one name the flag
decides which is found, the names that are returned are those taken over, and a second merge finds nothing
to change. -/
theorem merge_exact (p q : Project) (overwrite : Bool) :
    let merged := (p.merge q overwrite).1
    p.merge q overwrite = p.mergeInTurn q overwrite ∧
      merged.name = p.name ∧
      (∀ k, merged.routines.get? k =
        if overwrite then (q.routines.get? k).or (p.routines.get? k)
        else (p.routines.get? k).or (q.routines.get? k)) ∧
      merged.routines.keys = p.routines.keys ++ q.routines.keys.filter (· ∉ p.routines.keys) ∧
      (p.merge q overwrite).2 = q.routines.keys.filter (fun k => overwrite || k ∉ p.routines.keys) ∧
      merged.merge q overwrite = (merged, if overwrite then q.routines.keys else []) :=
  ⟨p.merge_eq_mergeInTurn q overwrite, rfl, p.get?_merge_eq_or q overwrite, p.keys_merge q overwrite,
    p.map_fst_taken q overwrite, p.merge_merge q overwrite⟩

end Project

end FlowBasic
