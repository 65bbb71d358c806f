import FlowBasic.Document.Project
import FlowBasic.Proofs.JumpLines
import FlowBasic.Proofs.LiteralTexts

namespace FlowBasic

theorem Decimal.text_eq_zero_iff (n : Nat) : text n = "0" ↔ n = 0 := by
  have hzero : text 0 = "0" := rfl
  rw [← hzero]
  exact text_injective.eq_iff

namespace Routine

variable {r : Routine} {scope : Scope} {firstLine : Nat} {name : String}

/-- A jump is written as zero when it lands nowhere, and when it lands on a line of that number. -/
theorem fragmentText_eq_zero_iff (t : NodeId) :
    (r.draft scope firstLine name).listing.fragmentText (.jump t) = "0" ↔
      r.landing? scope firstLine name t = none ∨ r.landing? scope firstLine name t = some 0 := by
  rw [Listing.fragmentText, resolve?_draft, Decimal.text_eq_zero_iff]
  cases r.landing? scope firstLine name t <;> simp

/-- It is told of a jump that it lands nowhere when it does not. -/
theorem unresolvedJump_mem_iff {line : Line} {t : NodeId}
    (hline : line ∈ (r.draft scope firstLine name).listing.lines) (ht : .jump t ∈ line.statement) :
    .unresolvedJump (line.owner.getD t) t ∈ (r.generate scope firstLine name).diagnostics ↔
      r.landing? scope firstLine name t = none := by
  have hdraft := r.unresolvedJump_notMem_draft scope firstLine name (line.owner.getD t) t
  rw [generate, List.mem_append, or_iff_right hdraft, Listing.unresolved, List.mem_flatMap, ← resolve?_draft]
  constructor
  · intro h
    obtain ⟨other, -, htold⟩ := h
    obtain ⟨f, -, hf⟩ := List.mem_filterMap.mp htold
    cases f with
    | text s => cases hf
    | jump t' =>
      dsimp only at hf
      split at hf
      · next hnone =>
        obtain rfl : t' = t := (Diagnostic.unresolvedJump.inj (Option.some.inj hf)).2
        exact Option.isNone_iff_eq_none.mp hnone
      · cases hf
  · intro hnone
    refine ⟨line, hline, List.mem_filterMap.mpr ⟨.jump t, ht, ?_⟩⟩
    simp [hnone]

theorem zero_told_iff {line : Line} {t : NodeId}
    (hline : line ∈ (r.draft scope firstLine name).listing.lines) (ht : .jump t ∈ line.statement) :
    ((r.draft scope firstLine name).listing.fragmentText (.jump t) = "0" ↔
        .unresolvedJump (line.owner.getD t) t ∈ (r.generate scope firstLine name).diagnostics) ↔
      r.landing? scope firstLine name t ≠ some 0 := by
  rw [fragmentText_eq_zero_iff, unresolvedJump_mem_iff hline ht]
  cases r.landing? scope firstLine name t <;> simp

/-- Only the first line can have the number zero. -/
theorem landing?_ne_zero_iff (t : NodeId) :
    r.landing? scope firstLine name t ≠ some 0 ↔
      firstLine ≠ 0 ∨ r.landing? scope firstLine name t ≠ some firstLine := by
  by_cases hfirst : firstLine = 0
  · simp [hfirst]
  · refine iff_of_true (fun hzero => ?_) (.inl hfirst)
    obtain ⟨i, -, -, hi, -⟩ := landing?_spec hzero
    omega

/-- A jump is told from all others by its zero when none of the others lands on a first line of that number. -/
theorem forall_told_iff (r : Routine) (scope : Scope) (firstLine : Nat) (name : String) :
    let listing := (r.draft scope firstLine name).listing
    (∀ line ∈ listing.lines, ∀ t, .jump t ∈ line.statement →
        (listing.fragmentText (.jump t) = "0" ↔
          .unresolvedJump (line.owner.getD t) t ∈ (r.generate scope firstLine name).diagnostics)) ↔
      firstLine ≠ 0 ∨ ∀ line ∈ listing.lines, ∀ t, .jump t ∈ line.statement →
        r.landing? scope firstLine name t ≠ some firstLine := by
  intro listing
  by_cases hfirst : firstLine = 0
  · constructor
    · intro htold
      refine .inr fun line hline t ht => ?_
      have hlanding := (landing?_ne_zero_iff t).mp ((zero_told_iff hline ht).mp (htold line hline t ht))
      exact hlanding.resolve_left (not_not.mpr hfirst)
    · intro h line hline t ht
      have hlanding := h.resolve_left (not_not.mpr hfirst) line hline t ht
      exact (zero_told_iff hline ht).mpr ((landing?_ne_zero_iff t).mpr (.inr hlanding))
  · refine iff_of_true (fun line hline t ht => ?_) (.inl hfirst)
    exact (zero_told_iff hline ht).mpr ((landing?_ne_zero_iff t).mpr (.inl hfirst))

/-- No line has the number zero when the first one has not and the sums of words do not get past the
largest one. -/
theorem forall_lineWord_ne_zero_iff (firstLine : UInt64) (length : Nat) :
    (∀ i < length, lineWord firstLine i ≠ 0) ↔
      length = 0 ∨ firstLine ≠ 0 ∧ firstLine.toNat + length ≤ UInt64.size := by
  have hsize : UInt64.size = 2 ^ 64 := rfl
  have hfirst : firstLine ≠ 0 ↔ firstLine.toNat ≠ 0 := not_congr UInt64.toNat_inj.symm
  have hzero : ∀ i, lineWord firstLine i = 0 ↔ (firstLine.toNat + i) % 2 ^ 64 = 0 := by
    intro i
    rw [← UInt64.toNat_inj, toNat_lineWord]
    rfl
  simp only [ne_eq, hzero] at hfirst ⊢
  rw [hfirst, hsize]
  constructor
  · intro h
    by_contra hnot
    have hbound := firstLine.toNat_lt
    by_cases hstart : firstLine.toNat = 0
    · exact h 0 (by omega) (by omega)
    · refine h (2 ^ 64 - firstLine.toNat) (by omega) ?_
      rw [Nat.add_sub_of_le hbound.le, Nat.mod_self]
  · intro h i hi
    rw [Nat.mod_eq_of_lt (by omega)]
    omega

/-- The zero tells the jumps that land nowhere from all others, and no line has that number, exactly when
there is no line or the first one has another number and the listing fits. The first half alone holds as
well where no jump lands on the first line. -/
theorem zero_unambiguous_iff (r : Routine) (scope : Scope) (o : Options) (name : String) :
    let first := o.firstLine.toNat
    let listing := (r.draft scope first name).listing
    let jumps (p : Line → NodeId → Prop) :=
      ∀ line ∈ listing.lines, ∀ t, .jump t ∈ line.statement → p line t
    let told := jumps fun line t => listing.fragmentText (.jump t) = "0" ↔
      .unresolvedJump (line.owner.getD t) t ∈ (r.generate scope first name).diagnostics
    let unnumbered := ∀ i < listing.lines.length, lineWord o.firstLine i ≠ 0
    (listing.Fits → (r.generate scope first name).code =
        r.header name ++ "\n" ++
          String.join (listing.lines.mapIdx fun i line =>
            Decimal.text (lineWord o.firstLine i).toNat ++ "\t" ++
              String.join (line.statement.map listing.fragmentText) ++ "\n") ++
          "End Function") ∧
      (listing.Fits ∧ told ∧ unnumbered ↔ listing.lines = [] ∨ o.firstLine ≠ 0 ∧ listing.Fits) ∧
      (listing.Fits → (told ↔ o.firstLine ≠ 0 ∨ jumps fun _ t => r.landing? scope first name t ≠ some first)) ∧
      (unnumbered ↔ listing.lines = [] ∨ o.firstLine ≠ 0 ∧ listing.nextLine ≤ UInt64.size) := by
  intro first listing jumps told unnumbered
  have hzero : first ≠ 0 ↔ o.firstLine ≠ 0 := not_congr (UInt64.toNat_inj (b := 0))
  have hnext : listing.nextLine = first + listing.lines.length := by
    rw [Listing.nextLine, firstLine_draft]
  have htold : told ↔ o.firstLine ≠ 0 ∨ jumps fun _ t => r.landing? scope first name t ≠ some first := by
    rw [← hzero]
    exact r.forall_told_iff scope first name
  have hnumbers : unnumbered ↔ listing.lines = [] ∨ o.firstLine ≠ 0 ∧ listing.nextLine ≤ UInt64.size := by
    rw [hnext, ← List.length_eq_zero_iff]
    exact forall_lineWord_ne_zero_iff o.firstLine listing.lines.length
  refine ⟨code_generate, ?_, fun _ => htold, hnumbers⟩
  rw [htold, hnumbers]
  constructor
  · intro h
    obtain ⟨hfits, -, hnumber⟩ := h
    exact hnumber.imp_right fun hnonzero => ⟨hnonzero.1, hfits⟩
  · intro h
    rcases h with hempty | ⟨hnonzero, hfits⟩
    · have hfits : listing.Fits := by
        rw [Listing.Fits, hnext, hempty]
        exact o.firstLine.toNat_lt
      refine ⟨hfits, .inr fun line hline => ?_, .inl hempty⟩
      exact absurd hline (hempty ▸ List.not_mem_nil)
    · exact ⟨hfits, .inl hnonzero, .inr ⟨hnonzero, Nat.le_of_lt hfits⟩⟩

/-- A test that is made again and again while it holds. -/
def testedAgain : Routine :=
  { fresh false with
    nodes := .ofList
      [(0, .start), (1, .ofPayload "End" (.returnLiteral (.number 0))),
       (2, .ofPayload "If" (.branch .ifThen)),
       (3, .ofPayload "Condition" (.condition (.uint64 .greater ⟨some 1, some 0⟩)))]
    links :=
      [⟨⟨0, 0⟩, ⟨2, 0⟩, .flow⟩, ⟨⟨3, 1⟩, ⟨2, 1⟩, .value .uint64⟩, ⟨⟨2, 2⟩, ⟨2, 0⟩, .flow⟩,
       ⟨⟨2, 3⟩, ⟨1, 0⟩, .flow⟩] }

/-- The options may number the first line zero. A jump to it reads as one that leads nowhere, and nothing
is told of it. -/
theorem testedAgain_from_zero :
    ∃ o, Options.parse? "\x7b\"firstLine\": 0\x7d" = some o ∧
      (testedAgain.report none "F").valid = true ∧
      testedAgain.landing? none o.firstLine.toNat "F" 2 = some 0 ∧
      compileRoutine o "F" testedAgain =
        .ok ⟨"F", "Function F() Uint64\n0\tIF (1 > 0) THEN GOTO 0\n1\tRETURN 0\nEnd Function", []⟩ := by
  refine ⟨{ Options.standard with firstLine := 0 }, ?_, ?_, ?_, ?_⟩
  all_goals decide +kernel

end Routine

end FlowBasic
