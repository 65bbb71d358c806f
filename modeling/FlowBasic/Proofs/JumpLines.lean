import FlowBasic.Proofs.Emission

namespace FlowBasic

/-- The jumps of a line, each from its owner to its target. -/
def Line.jumps (line : Line) : List (NodeId × NodeId) :=
  line.owner.elim [] fun u => line.statement.filterMap fun
    | .text _ => none
    | .jump t => some (u, t)

/-- The number of a line, by a sum of words: the first number and the place of the line. -/
def lineWord (firstLine : UInt64) (i : Nat) : UInt64 := firstLine + UInt64.ofNat i

theorem toNat_lineWord (firstLine : UInt64) (i : Nat) :
    (lineWord firstLine i).toNat = (firstLine.toNat + i) % 2 ^ 64 := by
  rw [lineWord, UInt64.toNat_add, UInt64.toNat_ofNat', Nat.add_mod_mod]

namespace Listing

/-- In a listing that fits, the sums of words are exact. -/
theorem Fits.toNat_lineWord {l : Listing} (h : l.Fits) {firstLine : UInt64}
    (hfirst : l.firstLine = firstLine.toNat) {i : Nat} (hi : i ≤ l.lines.length) :
    (lineWord firstLine i).toNat = firstLine.toNat + i := by
  have hnext : firstLine.toNat + l.lines.length < 2 ^ 64 := hfirst ▸ h
  have hlt : firstLine.toNat + i < 2 ^ 64 := by omega
  rw [FlowBasic.toNat_lineWord, Nat.mod_eq_of_lt hlt]

theorem lineTexts_eq_mapIdx (l : Listing) (n : Nat) (lines : List Line) :
    l.lineTexts n lines = lines.mapIdx fun i line =>
      Decimal.text (n + i) ++ "\t" ++ l.statementText line.statement ++ "\n" := by
  induction lines generalizing n with
  | nil => rfl
  | cons line lines ih =>
    rw [lineTexts, ih, List.mapIdx_cons]
    simp [Nat.add_assoc, Nat.add_comm 1]

theorem Fits.lineTexts_eq {l : Listing} (h : l.Fits) {firstLine : UInt64}
    (hfirst : l.firstLine = firstLine.toNat) :
    l.lineTexts l.firstLine l.lines = l.lines.mapIdx fun i line =>
      Decimal.text (lineWord firstLine i).toNat ++ "\t" ++ l.statementText line.statement ++ "\n" := by
  rw [lineTexts_eq_mapIdx, hfirst]
  apply List.ext_getElem
  · simp
  · intro i hi _
    have hle : i ≤ l.lines.length := by
      rw [List.length_mapIdx] at hi
      omega
    rw [List.getElem_mapIdx, List.getElem_mapIdx, h.toNat_lineWord hfirst hle]

theorem resolve?_of_startLine? {l : Listing} {id : NodeId} {n : Nat} (h : l.startLine? id = some n) :
    l.resolve? id = if n < l.nextLine then some n else none := by
  rw [startLine?] at h
  rw [resolve?, h, Option.filter_some]
  simp

end Listing

/-- The first part lacks what the second part has throughout. -/
theorem findIdx?_append_of_forall {α : Type} {p : α → Bool} {xs ys : List α}
    (hxs : ∀ x ∈ xs, p x = false) (hys : ∀ y ∈ ys, p y = true) :
    (xs ++ ys).findIdx? p = if 0 < ys.length then some xs.length else none := by
  rw [List.findIdx?_append, List.findIdx?_eq_none_iff.mpr hxs, Option.none_or]
  cases ys with
  | nil => rfl
  | cons y ys => simp [List.findIdx?_cons, hys y List.mem_cons_self]

namespace Routine

/-- The line belongs to the node or to one that stands after it. -/
def isAtOrAfter (r : Routine) (t : NodeId) (line : Line) : Bool :=
  line.owner.any fun w => !decide (Precedes r.traversal.order w t)

/-- The number of the first line that a node or one after it has written. -/
def landing? (r : Routine) (scope : Scope) (firstLine : Nat) (name : String) (t : NodeId) :
    Option Nat :=
  if r.nodes.contains t then
    ((r.draft scope firstLine name).listing.lines.findIdx? (r.isAtOrAfter t)).map (firstLine + ·)
  else none

/-- The lines of a listing around a node: before it, its own, and after it. -/
structure LinesAround (r : Routine) (listing : Listing) (t : NodeId)
    (before own after : List Line) : Prop where
  lines : listing.lines = before ++ (own ++ after)
  early : ∀ line ∈ before, r.isAtOrAfter t line = false
  owner : ∀ line ∈ own, line.owner = some t
  late : ∀ line ∈ after, ∃ w, line.owner = some w ∧ Precedes r.traversal.order t w
  preamble : r.declarationLines.length ≤ before.length
  start : listing.startLine? t = some (listing.firstLine + before.length)
  statements : listing.statementsOf t = own.map Line.statement

theorem header_draft (r : Routine) (scope : Scope) (firstLine : Nat) (name : String) :
    (r.draft scope firstLine name).listing.header = r.header name := by
  rw [listing_draft, Listing.header_pushNodes, preamble_eq]
  rfl

theorem firstLine_draft (r : Routine) (scope : Scope) (firstLine : Nat) (name : String) :
    (r.draft scope firstLine name).listing.firstLine = firstLine := by
  rw [listing_draft, Listing.firstLine_pushNodes, preamble_eq]
  rfl

theorem exists_linesAround (r : Routine) (scope : Scope) (firstLine : Nat) (name : String)
    {t : NodeId} (h : r.nodes.contains t = true) :
    ∃ before own after,
      r.LinesAround (r.draft scope firstLine name).listing t before own after := by
  obtain ⟨earlier, sts, later, hsplit, hlisting⟩ := r.exists_block scope h
  obtain ⟨hstatements, hstart⟩ := hlisting firstLine name
  have hkeys := r.keys_blocks scope
  have hnodup := r.nodup_order
  rw [hsplit, List.map_append, List.map_cons] at hkeys
  rw [← hkeys] at hnodup
  let lineOf : NodeId × List Statement → List Line := fun b => b.2.map fun st => ⟨some b.1, st⟩
  have hlength : (earlier.flatMap lineOf).length = (earlier.flatMap Prod.snd).length := by
    simp [lineOf, List.length_flatMap]
  have hlines := Listing.lines_pushNodes (r.preamble firstLine name) (r.blocks scope)
  rw [← listing_draft, hsplit, List.flatMap_append, List.flatMap_cons] at hlines
  refine ⟨(r.preamble firstLine name).lines ++ earlier.flatMap lineOf, lineOf (t, sts),
    later.flatMap lineOf, ?_, ?_, ?_, ?_, ?_, ?_, ?_⟩
  · rw [hlines, List.append_assoc]
  · intro line hline
    rcases List.mem_append.mp hline with hline | hline
    · rw [isAtOrAfter, r.preamble_owner firstLine name line hline]
      rfl
    · obtain ⟨⟨w, sts'⟩, hblock, hline⟩ := List.mem_flatMap.mp hline
      obtain ⟨st, _, rfl⟩ := List.mem_map.mp hline
      have hw : w ∈ earlier.map Prod.fst := List.mem_map.mpr ⟨_, hblock, rfl⟩
      have hprecedes : Precedes r.traversal.order w t := by
        rw [← hkeys, Precedes, idxOf_append_cons hnodup, List.idxOf_append, if_pos hw]
        exact List.idxOf_lt_length_of_mem hw
      simp [isAtOrAfter, hprecedes]
  · intro line hline
    obtain ⟨st, _, rfl⟩ := List.mem_map.mp hline
    rfl
  · intro line hline
    obtain ⟨⟨w, sts'⟩, hblock, hline⟩ := List.mem_flatMap.mp hline
    obtain ⟨st, _, rfl⟩ := List.mem_map.mp hline
    have hw : w ∈ later.map Prod.fst := List.mem_map.mpr ⟨_, hblock, rfl⟩
    refine ⟨w, rfl, ?_⟩
    rw [← hkeys]
    exact (precedes_append_cons_iff hnodup (by simp [hw])).mpr hw
  · simp [preamble_eq]
  · rw [hstart, firstLine_draft, List.length_append, hlength, preamble_eq, List.length_map,
      Nat.add_assoc]
  · rw [hstatements, List.map_map]
    exact (List.map_id sts).symm

theorem LinesAround.findIdx? {r : Routine} {listing : Listing} {t : NodeId}
    {before own after : List Line} (h : r.LinesAround listing t before own after) :
    listing.lines.findIdx? (r.isAtOrAfter t) =
      if 0 < (own ++ after).length then some before.length else none := by
  rw [h.lines]
  refine findIdx?_append_of_forall h.early ?_
  intro line hline
  rcases List.mem_append.mp hline with hline | hline
  · simp [isAtOrAfter, h.owner line hline, Precedes]
  · obtain ⟨w, howner, hprecedes⟩ := h.late line hline
    have hnot : ¬ Precedes r.traversal.order w t := Nat.lt_asymm hprecedes
    simp [isAtOrAfter, howner, hnot]

/-- The starting lines noted while writing lead each jump to its landing. -/
theorem resolve?_draft (r : Routine) (scope : Scope) (firstLine : Nat) (name : String) (t : NodeId) :
    (r.draft scope firstLine name).listing.resolve? t = r.landing? scope firstLine name t := by
  rw [landing?]
  split
  · next h =>
    obtain ⟨before, own, after, haround⟩ := r.exists_linesAround scope firstLine name h
    have hnext : (r.draft scope firstLine name).listing.nextLine =
        firstLine + before.length + (own ++ after).length := by
      rw [Listing.nextLine, firstLine_draft, haround.lines, List.length_append, Nat.add_assoc]
    rw [Listing.resolve?_of_startLine? haround.start, hnext, haround.findIdx?, firstLine_draft]
    by_cases hempty : 0 < (own ++ after).length
    · rw [if_pos (by omega), if_pos hempty]
      rfl
    · rw [if_neg (by omega), if_neg hempty]
      rfl
  · next h =>
    have hkey : t ∉ (r.blocks scope).map Prod.fst := by
      rw [keys_blocks, mem_order]
      exact h
    have hnone : (r.draft scope firstLine name).listing.starts.lookup t = none := by
      have hstart := Listing.startLine?_pushNodes_of_notMem (r.preamble firstLine name) hkey
      rw [← listing_draft, Listing.startLine?] at hstart
      rw [hstart, preamble_eq]
      rfl
    rw [Listing.resolve?, hnone]
    rfl

/-- A landing is a line of the listing after the preamble; it is the node's own if the node has any,
and that of a later node otherwise. -/
theorem landing?_spec {r : Routine} {scope : Scope} {firstLine : Nat} {name : String} {t : NodeId}
    {n : Nat} (h : r.landing? scope firstLine name t = some n) :
    ∃ i line w, n = firstLine + i ∧ r.declarationLines.length ≤ i ∧
      (r.draft scope firstLine name).listing.lines[i]? = some line ∧ line.owner = some w ∧
      if (r.draft scope firstLine name).listing.statementsOf t = [] then
        Precedes r.traversal.order t w
      else w = t := by
  rw [landing?] at h
  split at h
  · next hnode =>
    obtain ⟨before, own, after, haround⟩ := r.exists_linesAround scope firstLine name hnode
    obtain ⟨i, hi, rfl⟩ := Option.map_eq_some_iff.mp h
    rw [haround.findIdx?] at hi
    have hat : (r.draft scope firstLine name).listing.lines[before.length]? = (own ++ after)[0]? := by
      rw [haround.lines, List.getElem?_append_right (Nat.le_refl _), Nat.sub_self]
    split at hi
    · next hpos =>
      obtain rfl := Option.some.inj hi
      rw [haround.statements]
      cases own with
      | nil =>
        obtain ⟨line, rest, rfl⟩ := List.exists_cons_of_length_pos hpos
        obtain ⟨w, howner, hprecedes⟩ := haround.late line List.mem_cons_self
        refine ⟨_, line, w, rfl, haround.preamble, hat, howner, ?_⟩
        rw [if_pos List.map_nil]
        exact hprecedes
      | cons line own =>
        refine ⟨_, line, t, rfl, haround.preamble, hat, haround.owner line List.mem_cons_self, ?_⟩
        rw [if_neg (by simp)]
    · exact absurd hi (by simp)
  · exact absurd h (by simp)

/-- Only the lines of nodes have jumps. -/
theorem owner_or_text (r : Routine) (scope : Scope) (firstLine : Nat) (name : String) :
    ∀ line ∈ (r.draft scope firstLine name).listing.lines,
      (∃ u, line.owner = some u) ∨ ∃ text, line.statement = [.text text] := by
  intro line hline
  rw [listing_draft, Listing.lines_pushNodes] at hline
  rcases List.mem_append.mp hline with hline | hline
  · rw [preamble_eq] at hline
    obtain ⟨text, _, rfl⟩ := List.mem_map.mp hline
    exact .inr ⟨text, rfl⟩
  · obtain ⟨b, _, hline⟩ := List.mem_flatMap.mp hline
    obtain ⟨st, _, rfl⟩ := List.mem_map.mp hline
    exact .inl ⟨b.1, rfl⟩

/-- Every jump without a landing is told once, in the order of the listing. -/
theorem unresolved_draft (r : Routine) (scope : Scope) (firstLine : Nat) (name : String) :
    (r.draft scope firstLine name).listing.unresolved =
      ((r.draft scope firstLine name).listing.lines.flatMap Line.jumps).filterMap fun j =>
        if r.landing? scope firstLine name j.2 = none then some (.unresolvedJump j.1 j.2) else none := by
  rw [Listing.unresolved, List.filterMap_flatMap]
  refine List.flatMap_congr ?_
  intro line hline
  rcases r.owner_or_text scope firstLine name line hline with ⟨u, howner⟩ | ⟨text, htext⟩
  · simp only [Listing.unresolvedIn, Line.jumps, howner, Option.elim_some, Option.getD_some,
      List.filterMap_filterMap]
    refine List.filterMap_congr ?_
    intro f _
    cases f with
    | text s => rfl
    | jump t => simp [resolve?_draft]
  · cases howner : line.owner <;> simp [Listing.unresolvedIn, Line.jumps, howner, htext]

theorem unresolvedJump_notMem_draft (r : Routine) (scope : Scope) (firstLine : Nat) (name : String)
    (u t : NodeId) : .unresolvedJump u t ∉ (r.draft scope firstLine name).diagnostics := by
  intro hmem
  rw [draft, foldl_extend] at hmem
  rcases List.mem_append.mp hmem with hmem | hmem
  · obtain ⟨x, _, hx⟩ := List.mem_map.mp hmem
    exact Diagnostic.noConfusion hx
  · obtain ⟨c, _, hmem⟩ := List.mem_flatMap.mp hmem
    obtain ⟨port, _, hport⟩ := List.mem_map.mp hmem
    exact Diagnostic.noConfusion hport

/-- The code of a listing that fits: its lines, numbered one after the other. -/
theorem code_generate {r : Routine} {scope : Scope} {firstLine : UInt64} {name : String}
    (hfits : (r.draft scope firstLine.toNat name).listing.Fits) :
    (r.generate scope firstLine.toNat name).code =
      r.header name ++ "\n" ++
        String.join ((r.draft scope firstLine.toNat name).listing.lines.mapIdx fun i line =>
          Decimal.text (lineWord firstLine i).toNat ++ "\t" ++
            (r.draft scope firstLine.toNat name).listing.statementText line.statement ++ "\n") ++
        "End Function" := by
  change (r.draft scope firstLine.toNat name).listing.code = _
  rw [Listing.code, hfits.lineTexts_eq (r.firstLine_draft scope _ name), header_draft]

end Routine

end FlowBasic
