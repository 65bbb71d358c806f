import FlowBasic.Proofs.Renaming

namespace FlowBasic

namespace RoutineName

/-- A letter, small exactly for a process, and then letters, digits and underscores. -/
def IsNormal (isProcess : Bool) (name : String) : Prop :=
  ∃ c cs, name.toList = c :: cs ∧ c.isAlpha = true ∧ (c.isLower = true ↔ isProcess = true) ∧
    ∀ d ∈ cs, d.isAlpha = true ∨ d.isDigit = true ∨ d = '_'

theorem isTail_iff {c : Char} : isTail c = true ↔ c.isAlpha = true ∨ c.isDigit = true ∨ c = '_' := by
  simp [isTail, Char.isAlphanum, or_assoc]

theorem toNat_of_isAlpha {c : Char} (h : c.isAlpha = true) : 65 ≤ c.toNat ∧ c.toNat ≤ 122 := by
  delta Char.isAlpha Char.isUpper Char.isLower at h
  simp only [Bool.or_eq_true, Bool.and_eq_true, decide_eq_true_eq, ge_iff_le, UInt32.le_iff_toNat_le,
    Char.toNat_val] at h
  have hcase : 65 ≤ c.toNat ∧ c.toNat ≤ 90 ∨ 97 ≤ c.toNat ∧ c.toNat ≤ 122 := h
  omega

/-- A letter in the case that its routine calls for; in that case already, it stays as it is. -/
theorem case_of_isAlpha {c : Char} (h : c.isAlpha = true) (isProcess : Bool) :
    let d := if isProcess then c.toLower else c.toUpper
    d.isAlpha = true ∧ (d.isLower = true ↔ isProcess = true) ∧
      ((c.isLower = true ↔ isProcess = true) → d = c) := by
  -- there are few letters, and all of them are among the first characters
  have hall : ∀ n < 123, ∀ isProcess : Bool, (Char.ofNat n).isAlpha = true →
      let d := if isProcess then (Char.ofNat n).toLower else (Char.ofNat n).toUpper
      d.isAlpha = true ∧ (d.isLower = true ↔ isProcess = true) ∧
        (((Char.ofNat n).isLower = true ↔ isProcess = true) → d = Char.ofNat n) := by
    decide +kernel
  have hrange := toNat_of_isAlpha h
  have hletter := hall c.toNat (by omega) isProcess
  rw [Char.ofNat_toNat] at hletter
  exact hletter h

/-- The characters of a name lie between the blanks of ASCII and those beyond it. -/
theorem isBlank_of_isTail {c : Char} (h : isTail c = true) : isBlank c = false := by
  have hrange : 48 ≤ c.toNat ∧ c.toNat ≤ 122 := by
    rcases isTail_iff.mp h with hletter | hdigit | rfl
    · have hbounds := toNat_of_isAlpha hletter
      omega
    · have hdigit := Char.isDigit_iff_toNat.mp hdigit
      have hbounds : 48 ≤ c.toNat ∧ c.toNat ≤ 57 := hdigit
      omega
    · decide
  simp only [isBlank, Bool.or_eq_false_iff, Bool.and_eq_false_iff, decide_eq_false_iff_not]
  omega

theorem trim_of_forall {cs : List Char} (h : ∀ c ∈ cs, isBlank c = false) : trim cs = cs := by
  have hdrop : ∀ ds : List Char, (∀ d ∈ ds, isBlank d = false) → ds.dropWhile isBlank = ds := by
    intro ds hds
    cases ds with
    | nil => rfl
    | cons d ds => simp [hds d List.mem_cons_self]
  rw [trim, hdrop cs h, hdrop cs.reverse fun d hd => h d (List.mem_reverse.mp hd), List.reverse_reverse]

theorem normalize?_trimmed_of_normalize {isProcess : Bool} {text name : String}
    (h : normalize isProcess text = .ok name) : normalize? isProcess (trimmed text) = some name := by
  rw [normalize] at h
  split at h
  · next hname => exact hname.trans (congrArg some (Except.ok.inj h))
  · cases h

theorem isNormal_of_normalize {isProcess : Bool} {text name : String}
    (h : normalize isProcess text = .ok name) : IsNormal isProcess name := by
  have hname := normalize?_trimmed_of_normalize h
  rw [normalize?.eq_def] at hname
  split at hname
  · cases hname
  · next c cs _ =>
    split at hname
    · next hshape =>
      rw [Bool.and_eq_true, List.all_eq_true] at hshape
      obtain ⟨hletter, htail⟩ := hshape
      obtain rfl := Option.some.inj hname
      obtain ⟨hfirst, hcase, -⟩ := case_of_isAlpha hletter isProcess
      exact ⟨_, cs, String.toList_ofList, hfirst, hcase, fun d hd => isTail_iff.mp (htail d hd)⟩
    · cases hname

/-- A name in its normal form is left as it is. -/
theorem normalize_of_isNormal {isProcess : Bool} {name : String} (h : IsNormal isProcess name) :
    normalize isProcess name = .ok name := by
  obtain ⟨c, cs, hname, hletter, hcase, htail⟩ := h
  have htail : ∀ d ∈ cs, isTail d = true := fun d hd => isTail_iff.mpr (htail d hd)
  have htrimmed : trimmed name = c :: cs := by
    rw [trimmed, hname]
    apply trim_of_forall
    intro d hd
    apply isBlank_of_isTail
    rcases List.mem_cons.mp hd with rfl | hd
    · exact isTail_iff.mpr (.inl hletter)
    · exact htail d hd
  have hfirst : (if isProcess then c.toLower else c.toUpper) = c := (case_of_isAlpha hletter isProcess).2.2 hcase
  have hshape : (c.isAlpha && cs.all isTail) = true := by
    rw [Bool.and_eq_true, List.all_eq_true]
    exact ⟨hletter, htail⟩
  rw [normalize, htrimmed, normalize?, if_pos hshape, hfirst, ← hname, String.ofList_toList]

end RoutineName

namespace ProjectEdit

/-- The routines that an edit adds, changes, renames or deletes. -/
def subjects : ProjectEdit → List String
  | addRoutine text isProcess => (RoutineName.normalize? isProcess (RoutineName.trimmed text)).toList
  | renameRoutine old text =>
    old :: [true, false].filterMap fun isProcess =>
      RoutineName.normalize? isProcess (RoutineName.trimmed text)
  | deleteRoutine name => [name]
  | declareArgument routine .. => [routine]
  | declareVariable routine .. => [routine]
  | nodes routine _ => [routine]
  | links routine _ => [routine]
  | linksAlone routine _ => [routine]
  | addNode routine .. => [routine]
  | removeNode routine _ => [routine]
  | merge other _ => other.routines.keys

/-- Whether routines come in from another project, under the names that they have there. -/
def merges : ProjectEdit → Bool
  | merge .. => true
  | _ => false

end ProjectEdit

namespace Routine

theorem isProcess_updateNodes {r r' : Routine} {e : NodeEdit} {id : NodeId}
    (h : r.updateNodes e = .ok (r', id)) : r'.isProcess = r.isProcess := by
  rw [updateNodes] at h
  split at h
  · obtain ⟨rfl, -⟩ := Prod.mk.inj (Except.ok.inj h)
    rfl
  · cases h

theorem exists_links_of_updateLinks {r r' : Routine} {scope : Scope} {e : LinkEdit}
    (h : r.updateLinks scope e = .ok r') :
    ∃ links, e.apply r.links = .ok links ∧ r' = { r with links } := by
  cases e with
  | add l =>
    simp only [updateLinks] at h
    cases hfits : r.checkLink scope l with
    | error f =>
      rw [hfits] at h
      cases h
    | ok =>
      rw [hfits] at h
      cases hlinks : (LinkEdit.add l).apply r.links with
      | error duplicate =>
        rw [hlinks] at h
        cases h
      | ok links =>
        rw [hlinks] at h
        exact ⟨links, rfl, (Except.ok.inj h).symm⟩
  | remove l => exact ⟨_, rfl, (Except.ok.inj h).symm⟩
  | removeRelated id => exact ⟨_, rfl, (Except.ok.inj h).symm⟩

theorem isProcess_updateLinks {r r' : Routine} {scope : Scope} {e : LinkEdit}
    (h : r.updateLinks scope e = .ok r') : r'.isProcess = r.isProcess := by
  obtain ⟨links, _, rfl⟩ := exists_links_of_updateLinks h
  rfl

theorem isProcess_removeNode {r r' : Routine} {id : NodeId} (h : r.removeNode id = .ok r') :
    r'.isProcess = r.isProcess := by
  rw [removeNode] at h
  split at h
  · obtain rfl := Except.ok.inj h
    rfl
  · cases h

end Routine

namespace Project

/-- What one edit can do to the routines of a project. -/
inductive Step (p : Project) : ProjectEdit → Project → Prop
  | refused (e : ProjectEdit) : Step p e p
  | added {text name : String} {isProcess : Bool} (hname : RoutineName.normalize isProcess text = .ok name)
      (hfresh : name ∉ p.routines.keys) :
      Step p (.addRoutine text isProcess) (p.setRoutine name (.fresh isProcess))
  | renamed {q : Project} {old text new : String} {r : Routine} (h : p.Renamed q old new r)
      (hname : RoutineName.normalize r.isProcess text = .ok new) : Step p (.renameRoutine old text) q
  | deleted {name : String} (hfree : isReserved name = false) :
      Step p (.deleteRoutine name) { p with routines := p.routines.erase name }
  /-- One routine is changed and stays of its kind. -/
  | changed {e : ProjectEdit} {name : String} {r r' : Routine} (he : name ∈ e.subjects)
      (hr : p.routines.get? name = some r) (hkind : r'.isProcess = r.isProcess) :
      Step p e (p.setRoutine name r')
  | merged (other : Project) (overwrite : Bool) :
      Step p (.merge other overwrite) (p.merge other overwrite).1

theorem step_of_addRoutine {p q : Project} {text name : String} {isProcess : Bool}
    (h : p.addRoutine text isProcess = .ok (q, name)) : p.Step (.addRoutine text isProcess) q := by
  obtain ⟨new, hname, h⟩ := exists_ok_of_bind h
  split at h
  · cases h
  · next hfresh =>
    obtain ⟨rfl, -⟩ := Prod.mk.inj (Except.ok.inj h)
    rw [Table.contains_iff] at hfresh
    exact .added hname hfresh

theorem step_of_renameRoutine {p q : Project} {old text new : String}
    (h : p.renameRoutine old text = .ok (q, new)) : p.Step (.renameRoutine old text) q := by
  obtain ⟨r, hr⟩ := exists_renamed h
  simp only [renameRoutine, hr.unreserved] at h
  obtain ⟨found, hfound, hnamed⟩ := exists_ok_of_bind h
  obtain ⟨name, hname, hdone⟩ := exists_ok_of_bind hnamed
  split at hdone
  · cases hdone
  · obtain ⟨-, rfl⟩ := Prod.mk.inj (Except.ok.inj hdone)
    have hsame : r = found := Option.some.inj (hr.routine.symm.trans (get?_of_routine hfound))
    exact .renamed hr (hsame ▸ hname)

theorem step_of_deleteRoutine {p q : Project} {name : String} {r : Routine}
    (h : p.deleteRoutine name = .ok (q, r)) : p.Step (.deleteRoutine name) q := by
  simp only [deleteRoutine] at h
  split at h
  · cases h
  · next hreserved =>
    obtain ⟨r', _, h⟩ := exists_ok_of_bind h
    obtain ⟨rfl, -⟩ := Prod.mk.inj (Except.ok.inj h)
    exact .deleted (by simpa using hreserved)

theorem step_of_updateNodes {p q : Project} {e : ProjectEdit} {name : String} {edit : NodeEdit} {id : NodeId}
    (he : name ∈ e.subjects) (h : p.updateNodes name edit = .ok (q, id)) : p.Step e q := by
  obtain ⟨r, hr, h⟩ := exists_ok_of_bind h
  obtain ⟨r', hr', h⟩ := exists_ok_of_bind h
  obtain ⟨rfl, -⟩ := Prod.mk.inj (Except.ok.inj h)
  exact .changed he (get?_of_routine hr) (Routine.isProcess_updateNodes hr')

/-- An edit of one routine is a step when the routine stays of its kind. -/
theorem step_of_bind {p q : Project} {e : ProjectEdit} {name : String}
    {f : Routine → Except EditError Routine} (he : name ∈ e.subjects)
    (hf : ∀ {r r'}, f r = .ok r' → r'.isProcess = r.isProcess)
    (h : (do
      let r ← p.routine name
      let r ← f r
      return p.setRoutine name r : Except EditError Project) = .ok q) : p.Step e q := by
  obtain ⟨r, hr, h⟩ := exists_ok_of_bind h
  obtain ⟨r', hr', h⟩ := exists_ok_of_bind h
  obtain rfl := Except.ok.inj h
  exact .changed he (get?_of_routine hr) (hf hr')

theorem step_of_apply {p : Project} {e : ProjectEdit} {result : Project × Outcome}
    (h : e.apply p = .ok result) : p.Step e result.1 := by
  cases e with
  | addRoutine text isProcess =>
    obtain ⟨done, hdone, rfl⟩ := exists_ok_of_map h
    exact step_of_addRoutine hdone
  | renameRoutine old text =>
    obtain ⟨done, hdone, rfl⟩ := exists_ok_of_map h
    exact step_of_renameRoutine hdone
  | deleteRoutine name =>
    obtain ⟨done, hdone, rfl⟩ := exists_ok_of_map h
    exact step_of_deleteRoutine hdone
  | declareArgument routine name t =>
    obtain ⟨done, hdone, rfl⟩ := exists_ok_of_map h
    obtain ⟨r, hr, hdone⟩ := exists_ok_of_bind hdone
    obtain rfl := Except.ok.inj hdone
    exact .changed List.mem_cons_self (get?_of_routine hr) rfl
  | declareVariable routine name t =>
    obtain ⟨done, hdone, rfl⟩ := exists_ok_of_map h
    obtain ⟨r, hr, hdone⟩ := exists_ok_of_bind hdone
    obtain rfl := Except.ok.inj hdone
    exact .changed List.mem_cons_self (get?_of_routine hr) rfl
  | nodes routine edit =>
    obtain ⟨done, hdone, rfl⟩ := exists_ok_of_map h
    exact step_of_updateNodes List.mem_cons_self hdone
  | addNode routine name payload position =>
    obtain ⟨done, hdone, rfl⟩ := exists_ok_of_map h
    exact step_of_updateNodes List.mem_cons_self hdone
  | links routine edit =>
    obtain ⟨done, hdone, rfl⟩ := exists_ok_of_map h
    exact step_of_bind List.mem_cons_self Routine.isProcess_updateLinks hdone
  | linksAlone routine edit =>
    obtain ⟨done, hdone, rfl⟩ := exists_ok_of_map h
    exact step_of_bind List.mem_cons_self Routine.isProcess_updateLinks hdone
  | removeNode routine id =>
    obtain ⟨done, hdone, rfl⟩ := exists_ok_of_map h
    exact step_of_bind List.mem_cons_self Routine.isProcess_removeNode hdone
  | merge other overwrite =>
    obtain rfl := Except.ok.inj h
    exact .merged other overwrite

theorem step_applyD (p : Project) (e : ProjectEdit) : p.Step e (e.applyD p) := by
  rw [ProjectEdit.applyD]
  cases happly : e.apply p with
  | ok result => exact step_of_apply happly
  | error err => exact .refused e

/-- The entry points come first, and every routine has a name in the normal form of its kind. -/
structure Named (p : Project) : Prop where
  entries : reserved <+: p.routines.keys
  normal : ∀ name r, p.routines.get? name = some r → RoutineName.IsNormal r.isProcess name

theorem ne_of_mem_reserved {name k : String} (h : isReserved name = false) (hk : k ∈ reserved) :
    k ≠ name := by
  rintro rfl
  rw [isReserved, List.contains_iff_mem.mpr hk] at h
  cases h

theorem named_fresh (name : String) : (fresh name).Named where
  entries := List.prefix_refl reserved
  normal := by
    intro k r hr
    have hentry : (k, r) ∈ reserved.map fun k => (k, Routine.fresh false) := mem_entries_iff.mpr hr
    obtain ⟨k, hk, heq⟩ := List.mem_map.mp hentry
    obtain ⟨rfl, rfl⟩ := Prod.mk.inj heq
    have hnormal : RoutineName.normalize false k = .ok k := by
      rcases List.mem_pair.mp hk with rfl | rfl <;> rfl
    exact RoutineName.isNormal_of_normalize hnormal

theorem Named.setRoutine {p : Project} (hp : p.Named) {name : String} {r : Routine}
    (hname : RoutineName.IsNormal r.isProcess name) : (p.setRoutine name r).Named where
  entries := by
    have hkeys : p.routines.keys <+: (p.setRoutine name r).routines.keys := by
      rw [Project.setRoutine, Table.keys_insert]
      split
      · exact List.prefix_refl _
      · exact List.prefix_append _ _
    exact hp.entries.trans hkeys
  normal := by
    intro k r' hr'
    rw [Project.setRoutine, Table.get?_insert] at hr'
    split at hr'
    · next hk =>
      obtain rfl := Option.some.inj hr'
      exact hk ▸ hname
    · exact hp.normal k r' hr'

theorem Named.renamed {p q : Project} (hp : p.Named) {old new : String} {r : Routine}
    (h : p.Renamed q old new r) (hname : RoutineName.IsNormal r.isProcess new) : q.Named where
  entries := by
    have hreserved : reserved.map (RoutineName.replace old new) = reserved := by
      refine (List.map_congr_left ?_).trans (List.map_id reserved)
      intro k hk
      exact if_neg (ne_of_mem_reserved h.unreserved hk)
    have hprefix := hp.entries.map (RoutineName.replace old new)
    rw [hreserved] at hprefix
    exact h.keys_eq ▸ hprefix
  normal := by
    intro k r' hr'
    have hentry := mem_entries_iff.mpr hr'
    rw [h.entries_eq] at hentry
    obtain ⟨⟨k₀, r₀⟩, hmem, heq⟩ := List.mem_map.mp hentry
    obtain ⟨rfl, rfl⟩ := Prod.mk.inj heq
    have hget := mem_entries_iff.mp hmem
    change RoutineName.IsNormal r₀.isProcess (RoutineName.replace old new k₀)
    by_cases hk : k₀ = old
    · rw [hk, h.routine] at hget
      obtain rfl := Option.some.inj hget
      rw [RoutineName.replace, if_pos hk]
      exact hname
    · rw [RoutineName.replace, if_neg hk]
      exact hp.normal k₀ r₀ hget

theorem Named.erase {p : Project} (hp : p.Named) {name : String} (hfree : isReserved name = false) :
    ({ p with routines := p.routines.erase name } : Project).Named where
  entries := by
    have hreserved : reserved.filter (· ≠ name) = reserved := by
      apply List.filter_eq_self.mpr
      intro k hk
      simpa using ne_of_mem_reserved hfree hk
    have hprefix := hp.entries.filter (· ≠ name)
    rw [hreserved, ← Table.keys_erase] at hprefix
    exact hprefix
  normal := by
    intro k r hr
    rw [Table.get?_erase] at hr
    split at hr
    · cases hr
    · exact hp.normal k r hr

theorem Step.named {p q : Project} {e : ProjectEdit} (h : p.Step e q) (he : e.merges = false)
    (hp : p.Named) : q.Named := by
  cases h with
  | refused => exact hp
  | added hname hfresh => exact hp.setRoutine (RoutineName.isNormal_of_normalize hname)
  | renamed h hname => exact hp.renamed h (RoutineName.isNormal_of_normalize hname)
  | deleted hfree => exact hp.erase hfree
  | changed _ hr hkind => exact hp.setRoutine (hkind ▸ hp.normal _ _ hr)
  | merged other overwrite => cases he

theorem Named.run {p : Project} (hp : p.Named) {es : List ProjectEdit}
    (hes : ∀ e ∈ es, e.merges = false) : (p.run es).Named := by
  induction es generalizing p with
  | nil => exact hp
  | cons e es ih =>
    have hstep : (e.applyD p).Named := (p.step_applyD e).named (hes e List.mem_cons_self) hp
    exact ih hstep fun f hf => hes f (List.mem_cons_of_mem e hf)

/-- Whatever is done to a new project, short of merging others into it, and whether it is accepted or
refused: the entry points keep their places and every routine has a name in its normal form. -/
theorem names_throughout (name : String) {es : List ProjectEdit} (hes : ∀ e ∈ es, e.merges = false) :
    let p := (fresh name).run es
    p.routines.keys.take 2 = ["Initialize", "InitializePrivate"] ∧
      ∀ k r, (k, r) ∈ p.routines.entries →
        RoutineName.normalize r.isProcess k = .ok k ∧
          ∃ c cs, k.toList = c :: cs ∧ c.isAlpha = true ∧ (c.isLower = true ↔ r.isProcess = true) ∧
            ∀ d ∈ cs, d.isAlpha = true ∨ d.isDigit = true ∨ d = '_' := by
  intro p
  have hp : p.Named := (named_fresh name).run hes
  refine ⟨(List.prefix_iff_eq_take.mp hp.entries).symm, ?_⟩
  intro k r hentry
  have hnormal := hp.normal k r (mem_entries_iff.mp hentry)
  exact ⟨RoutineName.normalize_of_isNormal hnormal, hnormal⟩

/-- A process is added and renamed and a routine takes the name that is free again; entry points that
are to go or to be renamed stay, and a name that begins with a digit is refused. -/
theorem names_throughout_ledger :
    let es : List ProjectEdit :=
      [.addRoutine " Audit\t" true, .renameRoutine "audit" "Check_2", .addRoutine "audit" false,
       .deleteRoutine "Initialize", .renameRoutine "InitializePrivate" "Main", .addRoutine "2nd" false,
       .declareArgument "check_2" "amount" .uint64, .nodes "Audit" (.delete 1)]
    let p := (fresh "Ledger").run es
    (∀ e ∈ es, e.merges = false) ∧
      p.routines.keys = ["Initialize", "InitializePrivate", "check_2", "Audit"] ∧
      p.routines.keys.take 2 = ["Initialize", "InitializePrivate"] ∧
      ∀ k r, (k, r) ∈ p.routines.entries → RoutineName.normalize r.isProcess k = .ok k := by
  intro es p
  have hes : ∀ e ∈ es, e.merges = false := by decide
  obtain ⟨hfirst, hnames⟩ := names_throughout "Ledger" hes
  exact ⟨hes, by decide +kernel, hfirst, fun k r hentry => (hnames k r hentry).1⟩

end Project

end FlowBasic
