import FlowBasic.Proofs.Mentions
import FlowBasic.Proofs.ReadBack

namespace FlowBasic

theorem Digit.char_injective : Function.Injective Digit.char := by
  intro d e h
  have hread := congrArg Digit.ofChar? h
  rw [Digit.ofChar?_char, Digit.ofChar?_char] at hread
  exact Option.some.inj hread

namespace Decimal

theorem text_injective : Function.Injective text := by
  intro n m h
  have hchars := String.ofList_injective h
  have hdigits : digits n = digits m := Digit.char_injective.list_map hchars
  rw [← value_digits n, hdigits, value_digits]

theorem head?_text (n : Nat) : ∃ c ∈ (text n).toList.head?, c.isDigit = true := by
  cases hchars : (text n).toList with
  | nil => simp [text, Numeral.digits_ne_nil] at hchars
  | cons c cs => exact ⟨c, rfl, isDigit_of_mem_text (n := n) (by simp [hchars])⟩

/-- A number ends where a character follows that is no digit. -/
theorem eq_of_text_append {n m : Nat} {c : Char} (hc : c.isDigit = false) {xs ys : List Char}
    (h : (text n).toList ++ c :: xs = (text m).toList ++ c :: ys) : n = m := by
  have htake : ∀ (k : Nat) (zs : List Char),
      ((text k).toList ++ c :: zs).takeWhile Char.isDigit = (text k).toList := by
    intro k zs
    rw [List.takeWhile_append_of_pos fun _ => isDigit_of_mem_text,
      List.takeWhile_cons_of_neg (by simp [hc]), List.append_nil]
  have hsame := congrArg (List.takeWhile Char.isDigit) h
  rw [htake, htake] at hsame
  exact text_injective (String.toList_inj.mp hsame)

end Decimal

namespace Literal

/-- What ends a text that is not the last argument. -/
def delimiter : String := "\", "

/-- The literals as they stand between the brackets of a call. -/
def listText (vs : List Literal) : String := Site.commaList (vs.map render)

/-- The lists differ first in a text, which in the second one goes on behind a delimiter. What stands
there, up to the text's own end, is taken from the arguments that follow in the first list. -/
inductive RunsOn : List Literal → List Literal → Prop
  | here {s u : String} {vs ws : List Literal} (hvs : vs ≠ []) (hws : ws ≠ [])
      (h : listText vs = u ++ delimiter ++ listText ws) :
      RunsOn (text s :: vs) (text (s ++ delimiter ++ u) :: ws)
  | later {v : Literal} {vs ws : List Literal} (h : RunsOn vs ws) : RunsOn (v :: vs) (v :: ws)

theorem listText_cons (v : Literal) {vs : List Literal} (h : vs ≠ []) :
    listText (v :: vs) = v.render ++ ", " ++ listText vs := by
  rw [listText, Site.commaList, List.map_cons, String.intercalate_cons_of_ne_nil (by simpa using h)]
  rfl

theorem render_text_append (s t : String) : (text s).render ++ ", " ++ t = "\"" ++ s ++ delimiter ++ t := by
  have hdelimiter : delimiter = "\"" ++ ", " := rfl
  simp only [render, hdelimiter, String.append_assoc]

/-- The first character tells a number from a text. -/
theorem number_append_ne_text (n : UInt64) (s x y : String) :
    (number n).render ++ x ≠ (text s).render ++ y := by
  intro h
  obtain ⟨c, hc, hdigit⟩ := Decimal.head?_text n.toNat
  have hfirst := congrArg (·.toList.head?) h
  simp only [render, String.toList_append, List.head?_append, Option.mem_def.mp hc] at hfirst
  have hquote : c = '"' := by simpa using hfirst
  exact absurd hdigit (by rw [hquote]; decide)

theorem render_injective : Function.Injective render := by
  intro v w h
  cases v with
  | number n =>
    cases w with
    | number m => rw [UInt64.toNat_inj.mp (Decimal.text_injective h)]
    | text t => exact absurd (congrArg (· ++ "") h) (number_append_ne_text n t "" "")
  | text s =>
    cases w with
    | number m => exact absurd (congrArg (· ++ "") h.symm) (number_append_ne_text m s "" "")
    | text t => simpa [render, String.append_assoc] using h

/-- A text that goes further than another one, with a delimiter behind both, has the delimiter of the
other one whole, since no delimiter begins inside another. -/
theorem exists_of_append_delimiter {s t x y : String} {more : List Char} (hne : s ≠ t)
    (ht : t.toList = s.toList ++ more)
    (h : delimiter.toList ++ x.toList = more ++ (delimiter.toList ++ y.toList)) :
    ∃ u, t = s ++ delimiter ++ u ∧ x = u ++ delimiter ++ y := by
  have hchars : delimiter.toList = ['"', ',', ' '] := rfl
  rw [hchars] at h
  rcases more with _ | ⟨a, _ | ⟨b, _ | ⟨c, u⟩⟩⟩
  · exact absurd (String.toList_inj.mp (by simpa using ht.symm)) hne
  · simp at h
  · simp at h
  · simp only [List.cons_append, List.nil_append, List.cons.injEq] at h
    obtain ⟨rfl, rfl, rfl, hx⟩ := h
    refine ⟨String.ofList u, ?_, ?_⟩
    · apply String.toList_inj.mp
      simp [ht, hchars]
    · apply String.toList_inj.mp
      simp [hx, hchars]

/-- Literals that differ stand at the same place of two texts only if one of them runs on. -/
theorem runsOn_of_ne {v w : Literal} {vs ws : List Literal} (hne : v ≠ w) (hvs : vs ≠ []) (hws : ws ≠ [])
    (h : v.render ++ ", " ++ listText vs = w.render ++ ", " ++ listText ws) :
    RunsOn (v :: vs) (w :: ws) ∨ RunsOn (w :: ws) (v :: vs) := by
  cases v with
  | number n =>
    cases w with
    | number m =>
      have hchars := congrArg String.toList h
      simp only [render, String.toList_append, List.append_assoc] at hchars
      have hsame := Decimal.eq_of_text_append (c := ',') (by decide) hchars
      exact absurd (congrArg number (UInt64.toNat_inj.mp hsame)) hne
    | text t =>
      rw [String.append_assoc, String.append_assoc] at h
      exact absurd h (number_append_ne_text n t _ _)
  | text s =>
    cases w with
    | number m =>
      rw [String.append_assoc, String.append_assoc] at h
      exact absurd h.symm (number_append_ne_text m s _ _)
    | text t =>
      have hst : s ≠ t := fun hsame => hne (congrArg text hsame)
      rw [render_text_append, render_text_append] at h
      have hchars := congrArg String.toList h
      simp only [String.toList_append, List.append_assoc, List.append_cancel_left_eq] at hchars
      rcases List.append_eq_append_iff.mp hchars with ⟨more, ht, htail⟩ | ⟨more, hs, htail⟩
      · obtain ⟨u, rfl, hu⟩ := exists_of_append_delimiter hst ht htail
        exact .inl (.here hvs hws hu)
      · obtain ⟨u, rfl, hu⟩ := exists_of_append_delimiter hst.symm hs htail
        exact .inr (.here hws hvs hu)

theorem RunsOn.ne_nil {vs ws : List Literal} (h : RunsOn vs ws) : vs ≠ [] ∧ ws ≠ [] := by
  cases h <;> exact ⟨List.cons_ne_nil _ _, List.cons_ne_nil _ _⟩

theorem RunsOn.listText_eq {vs ws : List Literal} (h : RunsOn vs ws) : listText vs = listText ws := by
  induction h with
  | here hvs hws h =>
    rw [listText_cons _ hvs, listText_cons _ hws, render_text_append, render_text_append, h]
    simp only [String.append_assoc]
  | later h ih => rw [listText_cons _ h.ne_nil.1, listText_cons _ h.ne_nil.2, ih]

theorem RunsOn.exists_mentions {vs ws : List Literal} (h : RunsOn vs ws) :
    ∃ t, text t ∈ ws.dropLast ∧ Mentions delimiter t := by
  induction h with
  | @here s u vs ws _ hws _ =>
    refine ⟨s ++ delimiter ++ u, ?_, ((Mentions.refl delimiter).append_right s).append_left u⟩
    rw [List.dropLast_cons_of_ne_nil hws]
    exact List.mem_cons_self
  | later h ih =>
    obtain ⟨t, ht, hmention⟩ := ih
    refine ⟨t, ?_, hmention⟩
    rw [List.dropLast_cons_of_ne_nil h.ne_nil.2]
    exact List.mem_cons_of_mem _ ht

/-- Lists of literals that are as long as each other have one text if they are the same or one runs on. -/
theorem listText_eq_iff {vs ws : List Literal} (hlength : vs.length = ws.length) :
    listText vs = listText ws ↔ vs = ws ∨ RunsOn vs ws ∨ RunsOn ws vs := by
  constructor
  · intro h
    induction vs generalizing ws with
    | nil => exact .inl (List.length_eq_zero_iff.mp hlength.symm).symm
    | cons v vs ih =>
      obtain ⟨w, ws, rfl⟩ := List.exists_cons_of_length_eq_add_one hlength.symm
      rw [List.length_cons, List.length_cons, Nat.add_right_cancel_iff] at hlength
      by_cases hvs : vs = []
      · subst hvs
        obtain rfl := List.length_eq_zero_iff.mp hlength.symm
        have hrender : v.render = w.render := by simpa [listText, Site.commaList] using h
        exact .inl (by rw [render_injective hrender])
      · have hws : ws ≠ [] := by
          rintro rfl
          exact hvs (List.length_eq_zero_iff.mp hlength)
        rw [listText_cons _ hvs, listText_cons _ hws] at h
        by_cases hne : v = w
        · subst hne
          have htail : listText vs = listText ws := by simpa [String.append_assoc] using h
          rcases ih hlength htail with rfl | hruns | hruns
          · exact .inl rfl
          · exact .inr (.inl hruns.later)
          · exact .inr (.inr hruns.later)
        · exact .inr (runsOn_of_ne hne hvs hws h)
  · rintro (rfl | h | h)
    · rfl
    · exact h.listText_eq
    · exact h.listText_eq.symm

end Literal

namespace Site

/-- The text of a call, which it offers and which is its statement if it has one. -/
def builtinCall (s : Site) (c : Call) : String :=
  callText c.builtin.name (s.arguments c.argBase (c.args.values.map TypedSlot.literal?))

/-- With a literal for each argument the surroundings do not matter. -/
theorem builtinCall_of_literals (s : Site) {c : Call} {vs : List Literal}
    (h : c.args.values.map TypedSlot.literal? = vs.map some) :
    s.builtinCall c = c.builtin.name ++ "(" ++ Literal.listText vs ++ ")" := by
  have harguments : s.arguments c.argBase (vs.map some) = vs.map Literal.render := by
    rw [arguments_eq_mapIdx]
    apply List.ext_getElem?
    intro i
    rw [List.getElem?_mapIdx, List.getElem?_map, List.getElem?_map, Option.map_map]
    rfl
  rw [builtinCall, h, harguments]
  rfl

theorem builtinCall_eq_iff (s t : Site) {c d : Call} (hbuiltin : c.builtin = d.builtin)
    (hsize : c.args.size = d.args.size) {vs ws : List Literal}
    (hvs : c.args.values.map TypedSlot.literal? = vs.map some)
    (hws : d.args.values.map TypedSlot.literal? = ws.map some) :
    s.builtinCall c = t.builtinCall d ↔
      vs = ws ∨ Literal.RunsOn vs ws ∨ Literal.RunsOn ws vs := by
  have hlength : vs.length = ws.length := by
    have hleft := congrArg List.length hvs
    have hright := congrArg List.length hws
    simp only [Table.values, List.length_map] at hleft hright
    rw [← hleft, ← hright]
    exact hsize
  rw [← Literal.listText_eq_iff hlength, s.builtinCall_of_literals hvs, t.builtinCall_of_literals hws,
    hbuiltin]
  simp [String.append_assoc]

end Site

end FlowBasic
