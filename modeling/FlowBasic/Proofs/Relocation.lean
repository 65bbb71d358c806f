import FlowBasic.Proofs.JumpLines
import FlowBasic.Proofs.Outline

namespace FlowBasic

/-- A fragment as it stands in the code: text, the line where a jump lands, or the zero of a jump that
lands nowhere. -/
inductive Printed where
  | text (s : String)
  | line (n : Nat)
  | nowhere
deriving DecidableEq

namespace Printed

def render : Printed → String
  | text s => s
  | line n => Decimal.text n
  | nowhere => "0"

/-- The fragment in code that begins with line `b` and not with line `a`. -/
def relocate (a b : Nat) : Printed → Printed
  | text s => text s
  | line n => line (n - a + b)
  | nowhere => nowhere

/-- The code of numbered lines between a header and the footer. -/
def code (header : String) (lines : List (Nat × List Printed)) : String :=
  let numbered := lines.map fun line =>
    Decimal.text line.1 ++ "\t" ++ String.join (line.2.map render) ++ "\n"
  header ++ "\n" ++ String.join numbered ++ "End Function"

end Printed

namespace Listing

def print (l : Listing) : Fragment → Printed
  | .text s => .text s
  | .jump target => (l.resolve? target).elim .nowhere .line

/-- The lines of the code, each with its number and its fragments one by one. -/
def printed (l : Listing) : List (Nat × List Printed) :=
  l.lines.mapIdx fun i line => (l.firstLine + i, line.statement.map l.print)

theorem render_print (l : Listing) (f : Fragment) : (l.print f).render = l.fragmentText f := by
  cases f with
  | text s => rfl
  | jump target =>
    rw [print, fragmentText]
    cases l.resolve? target <;> rfl

theorem code_eq_printed (l : Listing) : l.code = Printed.code l.header l.printed := by
  have hstatement : ∀ st : Statement, String.join ((st.map l.print).map Printed.render) = l.statementText st := by
    intro st
    rw [List.map_map, statementText]
    congr 1
    exact List.map_congr_left fun f _ => l.render_print f
  rw [code, lineTexts_eq_mapIdx, Printed.code, printed, List.mapIdx_eq_zipIdx_map,
    List.mapIdx_eq_zipIdx_map, List.map_map]
  simp only [Function.comp_def, hstatement]

theorem map_fst_printed (l : Listing) :
    l.printed.map Prod.fst = List.range' l.firstLine l.lines.length := by
  apply List.ext_getElem
  · simp [printed]
  · intro i _ _
    simp [printed]

theorem map_snd_printed (l : Listing) :
    l.printed.map Prod.snd = l.lines.map fun line => line.statement.map l.print := by
  apply List.ext_getElem
  · simp [printed]
  · intro i _ _
    simp [printed]

end Listing

namespace Routine

variable (r : Routine) (scope : Scope) (name : String) (a b : Nat)

/-- What is written does not depend on where the lines begin. -/
theorem lines_draft_eq :
    (r.draft scope b name).listing.lines = (r.draft scope a name).listing.lines := by
  simp only [listing_draft, Listing.lines_pushNodes, preamble_eq]

theorem landing?_relocate (t : NodeId) :
    r.landing? scope b name t = (r.landing? scope a name t).map fun x => x - a + b := by
  rw [landing?, landing?, r.lines_draft_eq scope name a b]
  split
  · rw [Option.map_map]
    congr 1
    funext i
    simp only [Function.comp_apply]
    omega
  · rfl

theorem print_relocate (f : Fragment) :
    (r.draft scope b name).listing.print f = ((r.draft scope a name).listing.print f).relocate a b := by
  cases f with
  | text s => rfl
  | jump t =>
    rw [Listing.print, Listing.print, resolve?_draft, resolve?_draft, r.landing?_relocate scope name a b]
    cases r.landing? scope a name t <;> rfl

theorem unresolved_relocate :
    (r.draft scope b name).listing.unresolved = (r.draft scope a name).listing.unresolved := by
  rw [unresolved_draft, unresolved_draft, r.lines_draft_eq scope name a b]
  simp only [r.landing?_relocate scope name a b, Option.map_eq_none_iff]

/-- A jump that lands does so on a line of the listing. -/
theorem line_of_mem_printed {line : Nat × List Printed} {x : Nat}
    (hline : line ∈ (r.draft scope a name).listing.printed) (hx : .line x ∈ line.2) :
    a ≤ x ∧ x < a + (r.draft scope a name).listing.printed.length := by
  obtain ⟨i, hi, rfl⟩ := List.mem_mapIdx.mp hline
  obtain ⟨f, _, hf⟩ := List.mem_map.mp hx
  cases f with
  | text s => cases hf
  | jump t =>
    rw [Listing.print, resolve?_draft] at hf
    cases hlanding : r.landing? scope a name t with
    | none =>
      rw [hlanding] at hf
      cases hf
    | some n =>
      rw [hlanding] at hf
      obtain rfl : n = x := Printed.line.inj hf
      obtain ⟨k, target, w, rfl, _, hat, _⟩ := landing?_spec hlanding
      have hk : k < (r.draft scope a name).listing.lines.length := (List.getElem?_eq_some_iff.mp hat).1
      rw [Listing.printed, List.length_mapIdx]
      omega

/-- Written from another first line, a routine has the same diagnostics and the same header, footer and
number of lines. The lines are numbered on from there, and their fragments are the same one by one but
for the jumps that land, which all move along; those that land nowhere are zero as before. -/
theorem generate_relocated (r : Routine) (scope : Scope) (name : String) (a b : Nat) :
    let lines := (r.draft scope a name).listing.printed
    let moved := (r.draft scope b name).listing.printed
    (r.generate scope a name).code = Printed.code (r.header name) lines ∧
      (r.generate scope b name).code = Printed.code (r.header name) moved ∧
      (r.generate scope b name).diagnostics = (r.generate scope a name).diagnostics ∧
      lines.map Prod.fst = List.range' a lines.length ∧
      moved.map Prod.fst = List.range' b lines.length ∧
      moved.map Prod.snd = lines.map (fun line => line.2.map (Printed.relocate a b)) ∧
      ∀ line ∈ lines, ∀ x, .line x ∈ line.2 → a ≤ x ∧ x < a + lines.length := by
  intro lines moved
  have hcode : ∀ firstLine, (r.generate scope firstLine name).code =
      Printed.code (r.header name) (r.draft scope firstLine name).listing.printed := by
    intro firstLine
    rw [← r.header_draft scope firstLine name]
    exact Listing.code_eq_printed _
  have hlength : lines.length = (r.draft scope a name).listing.lines.length := List.length_mapIdx
  refine ⟨hcode a, hcode b, ?_, ?_, ?_, ?_, ?_⟩
  · simp only [generate, diagnostics_draft, r.unresolved_relocate scope name a b]
  · rw [Listing.map_fst_printed, firstLine_draft, hlength]
  · rw [Listing.map_fst_printed, firstLine_draft, hlength, r.lines_draft_eq scope name a b]
  · have hprint : (r.draft scope b name).listing.print =
        Printed.relocate a b ∘ (r.draft scope a name).listing.print :=
      funext (r.print_relocate scope name a b)
    have hlines : lines.map (fun line => line.2.map (Printed.relocate a b)) =
        (lines.map Prod.snd).map (List.map (Printed.relocate a b)) := by
      rw [List.map_map]
      rfl
    rw [hlines, Listing.map_snd_printed, Listing.map_snd_printed, r.lines_draft_eq scope name a b, hprint,
      List.map_map]
    simp only [Function.comp_def, List.map_map]
  · intro line hline x hx
    exact r.line_of_mem_printed scope name a hline hx

end Routine

end FlowBasic
