import FlowBasic.Proofs.TreeText
import Mathlib.Data.List.Chain

namespace FlowBasic

/-- The first text is rewritten into the second: its tokens stay as they are written, and the spaces between
them may be others. -/
inductive Respaced : List Char → List Char → Prop
  | nil : Respaced [] []
  | dropSpace {c : Char} {cs cs' : List Char} (hc : Scan.isSpace c = true) (h : Respaced cs cs') :
      Respaced (c :: cs) cs'
  | addSpace {c : Char} {cs cs' : List Char} (hc : Scan.isSpace c = true) (h : Respaced cs cs') :
      Respaced cs (c :: cs')
  | token {t : Token} {l cs cs' : List Char} (ht : t.Spelt l) (hend : ∀ c ∈ cs.head?, t.endsBefore c = true)
      (h : Respaced cs cs') : Respaced (l ++ cs) (l ++ cs')

namespace Token

/-- The second token may be written right after the first. -/
def Apart (t t' : Token) : Prop := ∀ l, t'.Spelt l → ∀ c ∈ l.head?, t.endsBefore c = true

theorem spelt_ne_nil {t : Token} {l : List Char} (h : t.Spelt l) : l ≠ [] := by
  rintro rfl
  cases t with
  | number n =>
    obtain ⟨c, rest, hnil, -⟩ := Numeral.start_of_spelt h
    cases hnil
  | text q =>
    obtain ⟨cs, -, hnil⟩ := h
    cases hnil
  | bool b => cases b <;> cases h
  | _ => cases h

theorem endsBefore_space {c : Char} (hc : Scan.isSpace c = true) (t : Token) : t.endsBefore c = true := by
  simp only [Scan.isSpace, Bool.or_eq_true, decide_eq_true_eq] at hc
  obtain ((rfl | rfl) | rfl) | rfl := hc <;> cases t <;> rfl

end Token

/-- A text begins with a space or with its first token. -/
theorem Spells.head_cases {ts : List Token} {cs : List Char} (h : Spells ts cs) {c : Char} (hc : c ∈ cs.head?) :
    Scan.isSpace c = true ∨ ∃ t ∈ ts.head?, ∃ l, t.Spelt l ∧ c ∈ l.head? := by
  cases h with
  | nil => cases hc
  | space hspace =>
    obtain rfl : _ = c := by simpa using hc
    exact .inl hspace
  | @token t l _ _ ht =>
    obtain ⟨first, rest, rfl⟩ := List.exists_cons_of_ne_nil (Token.spelt_ne_nil ht)
    exact .inr ⟨t, rfl, _, ht, hc⟩

theorem Spells.respaced {ts : List Token} {cs : List Char} (h : Spells ts cs) : Respaced cs cs := by
  induction h with
  | nil => exact .nil
  | space hc _ ih => exact .dropSpace hc (.addSpace hc ih)
  | token ht hend _ ih => exact .token ht hend ih

/-- The tokens of the first text are also those of the second, provided that none runs into the next. -/
theorem Respaced.spells {cs cs' : List Char} (h : Respaced cs cs') :
    ∃ ts, Spells ts cs ∧ (ts.IsChain Token.Apart → Spells ts cs') := by
  induction h with
  | nil => exact ⟨[], .nil, fun _ => .nil⟩
  | dropSpace hc _ ih =>
    obtain ⟨ts, hts, hts'⟩ := ih
    exact ⟨ts, .space hc hts, hts'⟩
  | addSpace hc _ ih =>
    obtain ⟨ts, hts, hts'⟩ := ih
    exact ⟨ts, hts, fun hchain => .space hc (hts' hchain)⟩
  | @token t l cs cs' ht hend _ ih =>
    obtain ⟨ts, hts, hts'⟩ := ih
    refine ⟨t :: ts, .token ht hend hts, fun hchain => ?_⟩
    have hrest := hts' hchain.tail
    refine .token ht (fun c hc => ?_) hrest
    obtain hspace | ⟨t', ht', l', hl', hc'⟩ := hrest.head_cases hc
    · exact Token.endsBefore_space hspace t
    · exact (List.isChain_cons.mp hchain).1 t' ht' l' hl' c hc'

namespace Parse

/-- A token that could run into the next one is a whole value. -/
theorem done_of_enter {around : Around} {t : Token} {s : Parse} (h : enter around t = some s) :
    (∀ c, t.endsBefore c = true) ∨ ∃ v around, s = done v around := by
  cases t with
  | null => exact .inr ⟨_, _, (Option.some.inj h).symm⟩
  | bool => exact .inr ⟨_, _, (Option.some.inj h).symm⟩
  | number => exact .inr ⟨_, _, (Option.some.inj h).symm⟩
  | _ => exact .inl fun _ => rfl

theorem done_of_step {s s' : Parse} {t : Token} (h : s.step t = some s') :
    (∀ c, t.endsBefore c = true) ∨ ∃ v around, s' = done v around := by
  rw [step.eq_def] at h
  split at h
  · exact done_of_enter h
  · exact .inl fun _ => rfl
  · exact done_of_enter h
  · exact .inl fun _ => rfl
  · exact .inl fun _ => rfl
  · cases h
  · exact .inl fun _ => rfl
  · cases h
  · exact .inl fun _ => rfl
  · cases h
  · exact .inl fun _ => rfl
  · exact .inl fun _ => rfl
  · exact .inl fun _ => rfl
  · exact .inl fun _ => rfl
  · cases h

/-- After a value comes a mark, which ends all that stands before it. -/
theorem apart_of_step_done {v : Json} {around : Around} {t' : Token} {s : Parse}
    (h : (done v around).step t' = some s) (t : Token) : t.Apart t' := by
  intro l hl c hc
  have hmark : t' = .comma ∨ t' = .closeArray ∨ t' = .closeObject := by
    cases around <;> cases t' <;> cases h <;> simp
  obtain rfl | rfl | rfl := hmark <;>
  · cases hl
    obtain rfl := Option.some.inj hc
    cases t <;> rfl

/-- No token of a text that is parsed runs into the next one. -/
theorem apart_of_foldlM {ts : List Token} {s s' : Parse} (h : ts.foldlM step s = some s') :
    ts.IsChain Token.Apart := by
  induction ts generalizing s with
  | nil => exact .nil
  | cons t ts ih =>
    obtain ⟨next, hnext, hrest⟩ := Option.bind_eq_some_iff.mp h
    refine List.isChain_cons.mpr ⟨?_, ih hrest⟩
    cases ts with
    | nil => simp
    | cons t' ts =>
      obtain ⟨after, hafter, -⟩ := Option.bind_eq_some_iff.mp hrest
      intro t'' ht''
      obtain rfl := Option.some.inj ht''
      obtain hends | ⟨v, around, rfl⟩ := done_of_step hnext
      · exact fun _ _ c _ => hends c
      · exact apart_of_step_done hafter t

end Parse

/-- With other spaces between its tokens a text is read as the same tree. -/
theorem Json.parse?_respaced {d d' : String} (h : Respaced d.toList d'.toList) {v : Json}
    (hv : parse? d = some v) : parse? d' = some v := by
  obtain ⟨ts, hts, hts'⟩ := h.spells
  obtain rfl : ts = v.tokens := Option.some.inj (hts.scan.symm.trans (parse?_eq_some_iff.mp hv).scan)
  obtain ⟨s, hs, -⟩ := Option.bind_eq_some_iff.mp (ofTokens?_tokens v)
  exact parse?_eq_some_iff.mpr (hts' (Parse.apart_of_foldlM hs))

end FlowBasic
