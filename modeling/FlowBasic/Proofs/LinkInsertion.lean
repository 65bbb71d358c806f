import FlowBasic.Proofs.LinkExclusivity
import FlowBasic.Proofs.RefusedEdits
import Mathlib.Data.List.TakeWhile

namespace FlowBasic

namespace Link

/-- Whether the link gives up its place to a new one. Links into the same input do so for a value only,
and only if no link leaves the same output. -/
def yields (l : Link) (ls : List Link) (m : Link) : Bool :=
  if ls.any (·.source = l.source) then m.source = l.source else !l.isFlow && m.sink = l.sink

/-- The links in front of the first one that gives up its place. -/
def ahead (l : Link) (ls : List Link) : List Link := ls.takeWhile fun m => !l.yields ls m

/-- The links behind the first one that gives up its place. -/
def behind (l : Link) (ls : List Link) : List Link := (ls.dropWhile fun m => !l.yields ls m).tail

/-- What is set at the place of the first yielding element has the others ahead of it and behind it. -/
theorem set_of_findIdx? {p : Link → Bool} {ls : List Link} {i : Nat} (l : Link)
    (h : ls.findIdx? p = some i) :
    ls.set i l = (ls.takeWhile fun m => !p m) ++ l :: (ls.dropWhile fun m => !p m).tail := by
  induction ls generalizing i with
  | nil => simp at h
  | cons m ls ih =>
    rw [List.findIdx?_cons] at h
    by_cases hm : p m = true
    · rw [if_pos hm] at h
      obtain rfl := Option.some.inj h
      simp [hm]
    · rw [if_neg hm] at h
      obtain ⟨j, hj, rfl⟩ := Option.map_eq_some_iff.mp h
      simp [hm, ih hj]

theorem yields_of_any {l : Link} {ls : List Link} (h : ls.any (·.source = l.source) = true) :
    l.yields ls = fun m => decide (m.source = l.source) := by
  funext m
  rw [yields, if_pos h]

theorem yields_of_not_any {l : Link} {ls : List Link} (h : ls.any (·.source = l.source) = false) :
    l.yields ls = fun m => !l.isFlow && decide (m.sink = l.sink) := by
  funext m
  rw [yields, if_neg (by simp [h])]

theorem any_source_of_replaceSource (l : Link) (ls : List Link) :
    ls.any (·.source = l.source) = (replaceSource l ls).isSome := by
  rw [replaceSource_eq, Option.isSome_map, List.findIdx?_isSome]

theorem eq_append_of_replaceSource {l : Link} {ls ms : List Link} (h : replaceSource l ls = some ms) :
    ms = l.ahead ls ++ l :: l.behind ls := by
  have hany : ls.any (·.source = l.source) = true := by rw [any_source_of_replaceSource, h]; rfl
  rw [replaceSource_eq] at h
  obtain ⟨i, hi, rfl⟩ := Option.map_eq_some_iff.mp h
  rw [ahead, behind, yields_of_any hany, set_of_findIdx? l hi]

theorem eq_append_of_replaceSink {l : Link} {ls ms : List Link}
    (hany : ls.any (·.source = l.source) = false) (hvalue : l.isFlow = false)
    (h : replaceSink l ls = some ms) : ms = l.ahead ls ++ l :: l.behind ls := by
  rw [replaceSink_eq] at h
  obtain ⟨i, hi, rfl⟩ := Option.map_eq_some_iff.mp h
  simp only [ahead, behind, yields_of_not_any hany, hvalue, Bool.not_false, Bool.true_and]
  exact set_of_findIdx? l hi

theorem ahead_of_forall {l : Link} {ls : List Link} (h : ∀ m ∈ ls, l.yields ls m = false) :
    l.ahead ls = ls := by
  apply List.takeWhile_eq_self_iff.mpr
  intro m hm
  rw [h m hm, Bool.not_false]

/-- A link on either side of the new one may be driven out, and the new one stays where it is. -/
theorem evictSink_append (l : Link) (before after : List Link) :
    ∃ front back, evictSink l (before ++ l :: after) = front ++ l :: back ∧ front.Sublist before ∧
      back.Sublist after := by
  induction before with
  | nil =>
    have hback : (evictSink l after).Sublist after := by
      rw [evictSink_eq]
      cases after.findIdx? fun m => m ≠ l ∧ m.sink = l.sink with
      | none => exact List.Sublist.refl _
      | some i => exact List.eraseIdx_sublist after i
    exact ⟨[], evictSink l after, by simp [evictSink], List.Sublist.refl _, hback⟩
  | cons m before ih =>
    by_cases hrival : m ≠ l ∧ m.sink = l.sink
    · refine ⟨before, after, ?_, List.sublist_cons_self m before, List.Sublist.refl _⟩
      rw [List.cons_append, evictSink, if_pos hrival]
    · obtain ⟨front, back, heq, hfront, hback⟩ := ih
      refine ⟨m :: front, back, ?_, hfront.cons_cons m, hback⟩
      rw [List.cons_append, evictSink, if_neg hrival, heq, List.cons_append]

/-- The new link comes to stand where another one yields, or at the end. -/
theorem exists_place_append (l : Link) (ls : List Link) :
    ∃ before after, place l ls = before ++ l :: after ∧ before.Sublist (l.ahead ls) ∧
      after.Sublist (l.behind ls) := by
  rw [place]
  cases hreplace : replaceSource l ls with
  | some ms =>
    obtain rfl := eq_append_of_replaceSource hreplace
    cases hflow : l.isFlow with
    | true => exact ⟨l.ahead ls, l.behind ls, rfl, List.Sublist.refl _, List.Sublist.refl _⟩
    | false => exact evictSink_append l (l.ahead ls) (l.behind ls)
  | none =>
    have hany : ls.any (·.source = l.source) = false := by rw [any_source_of_replaceSource, hreplace]; rfl
    have hend : (∀ m ∈ ls, l.yields ls m = false) →
        ∃ before after, ls ++ [l] = before ++ l :: after ∧ before.Sublist (l.ahead ls) ∧
          after.Sublist (l.behind ls) := by
      intro hfree
      rw [ahead_of_forall hfree]
      exact ⟨ls, [], rfl, List.Sublist.refl _, List.nil_sublist _⟩
    cases hflow : l.isFlow with
    | true => exact hend fun m _ => by simp [yields_of_not_any hany, hflow]
    | false =>
      cases hsink : replaceSink l ls with
      | none =>
        rw [replaceSink_eq, Option.map_eq_none_iff, List.findIdx?_eq_none_iff] at hsink
        exact hend fun m hm => by simp [yields_of_not_any hany, hsink m hm]
      | some ms =>
        obtain rfl := eq_append_of_replaceSink hany hflow hsink
        exact ⟨l.ahead ls, l.behind ls, rfl, List.Sublist.refl _, List.Sublist.refl _⟩

theorem count_place {l : Link} {ls : List Link} (hl : l ∉ ls) : (place l ls).count l = 1 := by
  have hspared : l ∉ l.spared ls := fun hin => hl ((l.spared_sublist ls).mem hin)
  rw [(perm_place hl).count_eq, List.count_cons_self, List.count_eq_zero.mpr hspared]

/-- All links stay where none has to make room. -/
theorem spared_of_free {l : Link} {ls : List Link} (hsource : ∀ m ∈ ls, m.source ≠ l.source)
    (hsink : l.isFlow = false → ∀ m ∈ ls, m.sink ≠ l.sink) : l.spared ls = ls := by
  have houtput : ls.eraseP (·.source = l.source) = ls := by
    apply List.eraseP_of_forall_not
    simpa using hsource
  simp only [spared, houtput]
  split
  · rfl
  · next hvalue =>
    apply List.eraseP_of_forall_not
    simpa using hsink (by simpa using hvalue)

end Link

namespace LinkEdit

/-- A link is refused when it is there, and only then. Else it stands in the list once. Without it the
others are the old ones in their order, less the first one from its output and, for a value, the first
one of the rest into its input. Where none of these is there, to take the link away again leaves the list
as it was. -/
theorem add_exact (ls : List Link) (l : Link) :
    (∀ e, (add l).apply ls = .error e ↔ l ∈ ls ∧ e = ⟨l⟩) ∧
    (l ∉ ls → ∃ ms, (add l).apply ls = .ok ms ∧ (add l).perform ls = .ok () ms ∧ ms.count l = 1 ∧
      (l.isFlow = true → ms.erase l = ls.eraseP (·.source = l.source)) ∧
      (l.isFlow = false →
        ms.erase l = (ls.eraseP (·.source = l.source)).eraseP (·.sink = l.sink)) ∧
      ∃ before after, ms = before ++ l :: after ∧ before.Sublist (l.ahead ls) ∧
        after.Sublist (l.behind ls)) ∧
    ((∀ m ∈ ls, m.source ≠ l.source) → (l.isFlow = false → ∀ m ∈ ls, m.sink ≠ l.sink) →
      ∃ ms, (add l).apply ls = .ok ms ∧ (remove l).apply ms = .ok ls) := by
  have hadded : l ∉ ls → (add l).apply ls = .ok (l.place ls) := fun hl => by rw [apply, if_neg hl]
  refine ⟨?_, ?_, ?_⟩
  · intro e
    by_cases hl : l ∈ ls
    · simp [apply, hl, eq_comm]
    · simp [hadded hl, hl]
  · intro hl
    obtain ⟨-, herase⟩ := Link.mem_erase_place hl
    refine ⟨l.place ls, hadded hl, perform_add_of_notMem hl, Link.count_place hl, ?_, ?_,
      l.exists_place_append ls⟩
    · intro hflow
      simp [herase, Link.spared, hflow]
    · intro hvalue
      simp [herase, Link.spared, hvalue]
  · intro hsource hsink
    have hl : l ∉ ls := fun hin => hsource l hin rfl
    refine ⟨l.place ls, hadded hl, ?_⟩
    rw [apply, (Link.mem_erase_place hl).2, Link.spared_of_free hsource hsink]

/-- Links of which two go when a value is linked from `1:1` into `6:1`: one in front of where the new link
comes to stand, and the one that stands there. A second one into `6:1` stays. -/
def crossing : List Link :=
  [⟨⟨2, 1⟩, ⟨6, 1⟩, .value .uint64⟩, ⟨⟨0, 0⟩, ⟨5, 0⟩, .flow⟩, ⟨⟨1, 1⟩, ⟨5, 0⟩, .value .uint64⟩,
    ⟨⟨3, 1⟩, ⟨6, 1⟩, .value .uint64⟩]

theorem add_exact_crossing :
    ⟨⟨1, 1⟩, ⟨6, 1⟩, .value .uint64⟩ ∉ crossing ∧
    ∃ ms, (add ⟨⟨1, 1⟩, ⟨6, 1⟩, .value .uint64⟩).apply crossing = .ok ms ∧
      ms = [⟨⟨0, 0⟩, ⟨5, 0⟩, .flow⟩, ⟨⟨1, 1⟩, ⟨6, 1⟩, .value .uint64⟩,
        ⟨⟨3, 1⟩, ⟨6, 1⟩, .value .uint64⟩] ∧
      ms.erase ⟨⟨1, 1⟩, ⟨6, 1⟩, .value .uint64⟩ =
        [⟨⟨0, 0⟩, ⟨5, 0⟩, .flow⟩, ⟨⟨3, 1⟩, ⟨6, 1⟩, .value .uint64⟩] := by
  have hnew : ⟨⟨1, 1⟩, ⟨6, 1⟩, .value .uint64⟩ ∉ crossing := by decide
  obtain ⟨ms, hadd, -, -, -, hvalue, -⟩ := (add_exact crossing ⟨⟨1, 1⟩, ⟨6, 1⟩, .value .uint64⟩).2.1 hnew
  refine ⟨hnew, ms, hadd, ?_, ?_⟩
  · exact (Except.ok.inj hadd).symm.trans (by decide)
  · rw [hvalue rfl]
    decide

end LinkEdit

end FlowBasic
