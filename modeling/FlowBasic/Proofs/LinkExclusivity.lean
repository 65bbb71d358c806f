import FlowBasic.Link.Edit
import FlowBasic.Proofs.Validity
import Mathlib.Data.List.Perm.Basic

namespace FlowBasic

theorem eq_false_of_mem_eraseP {α : Type} {p : α → Bool} {xs : List α}
    (h : xs.Pairwise fun a b => ¬ (p a = true ∧ p b = true)) : ∀ x ∈ xs.eraseP p, p x = false := by
  induction xs with
  | nil => simp
  | cons a xs ih =>
    obtain ⟨hfirst, hrest⟩ := List.pairwise_cons.mp h
    intro x hx
    cases hp : p a with
    | true =>
      rw [List.eraseP_cons_of_pos hp] at hx
      have hnot := hfirst x hx
      simpa [hp] using hnot
    | false =>
      rw [List.eraseP_cons_of_neg (by simp [hp])] at hx
      rcases List.mem_cons.mp hx with rfl | hx
      · exact hp
      · exact ih hrest x hx

theorem filter_eraseP {α : Type} (p : α → Bool) (xs : List α) :
    (xs.eraseP p).filter p = (xs.filter p).tail := by
  induction xs with
  | nil => rfl
  | cons a xs ih => cases hp : p a <;> simp [hp, ih]

namespace Link

/-- The links that stay when a link is added to them. -/
def spared (l : Link) (ls : List Link) : List Link :=
  let others := ls.eraseP (·.source = l.source)
  if l.isFlow then others else others.eraseP (·.sink = l.sink)

theorem spared_sublist (l : Link) (ls : List Link) : (l.spared ls).Sublist ls := by
  simp only [spared]
  split
  · exact List.eraseP_sublist
  · exact List.eraseP_sublist.trans List.eraseP_sublist

theorem mem_erase_replaceSource {l : Link} {ls ms : List Link} (hl : l ∉ ls)
    (h : replaceSource l ls = some ms) :
    l ∈ ms ∧ ms.erase l = ls.eraseP (·.source = l.source) := by
  induction ls generalizing ms with
  | nil => simp [replaceSource] at h
  | cons m ls ih =>
    obtain ⟨hm, hl⟩ := not_or.mp (mt List.mem_cons.mpr hl)
    simp only [replaceSource] at h
    split at h
    · next hsource =>
      obtain rfl := Option.some.inj h
      simp [hsource]
    · next hsource =>
      obtain ⟨ns, hns, rfl⟩ := Option.map_eq_some_iff.mp h
      obtain ⟨hmem, herase⟩ := ih hl hns
      have hne : ¬ m = l := fun heq => hm heq.symm
      simp [hmem, herase, hsource, hne]

theorem eraseP_of_replaceSource {l : Link} {ls : List Link} (h : replaceSource l ls = none) :
    ls.eraseP (·.source = l.source) = ls := by
  induction ls with
  | nil => rfl
  | cons m ls ih =>
    simp only [replaceSource] at h
    split at h
    · exact absurd h (by simp)
    · next hsource => simp [hsource, ih (Option.map_eq_none_iff.mp h)]

theorem mem_erase_replaceSink {l : Link} {ls : List Link} (hl : l ∉ ls) :
    let ms := (replaceSink l ls).getD (ls ++ [l])
    l ∈ ms ∧ ms.erase l = ls.eraseP (·.sink = l.sink) := by
  induction ls with
  | nil => simp [replaceSink]
  | cons m ls ih =>
    obtain ⟨hm, hl⟩ := not_or.mp (mt List.mem_cons.mpr hl)
    have hne : ¬ m = l := fun heq => hm heq.symm
    obtain ⟨hmem, herase⟩ := ih hl
    by_cases hsink : m.sink = l.sink
    · simp [replaceSink, hsink]
    · cases hreplace : replaceSink l ls <;>
        simp_all [replaceSink]

theorem evictSink_of_notMem {l : Link} {ls : List Link} (hl : l ∉ ls) :
    evictSink l ls = ls.eraseP (·.sink = l.sink) := by
  induction ls with
  | nil => rfl
  | cons m ls ih =>
    obtain ⟨hm, hl⟩ := not_or.mp (mt List.mem_cons.mpr hl)
    have hne : ¬ m = l := fun heq => hm heq.symm
    by_cases hsink : m.sink = l.sink <;> simp [evictSink, hne, hsink, ih hl]

theorem mem_erase_evictSink {l : Link} {ms : List Link} (hmem : l ∈ ms) (honce : l ∉ ms.erase l) :
    l ∈ evictSink l ms ∧ (evictSink l ms).erase l = (ms.erase l).eraseP (·.sink = l.sink) := by
  induction ms with
  | nil => exact absurd hmem List.not_mem_nil
  | cons m ms ih =>
    by_cases hm : m = l
    · subst hm
      rw [List.erase_cons_head] at honce ⊢
      simp [evictSink, evictSink_of_notMem honce]
    · have hmem : l ∈ ms := (List.mem_cons.mp hmem).resolve_left fun heq => hm heq.symm
      rw [List.erase_cons_tail (by simpa using hm)] at honce ⊢
      have honce : l ∉ ms.erase l := fun hin => honce (List.mem_cons_of_mem _ hin)
      by_cases hsink : m.sink = l.sink
      · simp [evictSink, hm, hsink, hmem]
      · obtain ⟨hin, herase⟩ := ih hmem honce
        simp [evictSink, hm, hsink, hin, herase]

/-- A new link stands in the list, and without it the others are those it spares, in their order. -/
theorem mem_erase_place {l : Link} {ls : List Link} (hl : l ∉ ls) :
    l ∈ place l ls ∧ (place l ls).erase l = l.spared ls := by
  simp only [place, spared]
  cases hreplace : replaceSource l ls with
  | some ms =>
    obtain ⟨hmem, herase⟩ := mem_erase_replaceSource hl hreplace
    have honce : l ∉ ms.erase l := by
      rw [herase]
      exact fun hin => hl (List.mem_of_mem_eraseP hin)
    cases hflow : l.isFlow with
    | true => simp [hmem, herase]
    | false =>
      obtain ⟨hin, hevict⟩ := mem_erase_evictSink hmem honce
      simp [hin, hevict, herase]
  | none =>
    rw [eraseP_of_replaceSource hreplace]
    cases hflow : l.isFlow with
    | true => simp [List.erase_append, hl]
    | false => simpa using mem_erase_replaceSink hl

theorem perm_place {l : Link} {ls : List Link} (hl : l ∉ ls) :
    (place l ls).Perm (l :: l.spared ls) := by
  obtain ⟨hmem, herase⟩ := mem_erase_place hl
  exact herase ▸ List.perm_cons_erase hmem

theorem mem_of_mem_place {l m : Link} {ls : List Link} (hl : l ∉ ls) (hm : m ∈ place l ls) :
    m = l ∨ m ∈ ls :=
  (List.mem_cons.mp ((perm_place hl).mem_iff.mp hm)).imp_right (l.spared_sublist ls).mem

theorem Clash.symm {a b : Link} (h : a.Clash b) : b.Clash a := by
  rcases h with ⟨ha, hb, heq⟩ | ⟨ha, hb, heq⟩
  · exact .inl ⟨hb, ha, heq.symm⟩
  · exact .inr ⟨hb, ha, heq.symm⟩

/-- No two links want the same port for themselves. -/
def Exclusive (ls : List Link) : Prop := ls.Pairwise fun a b => ¬ a.Clash b

theorem exclusive_iff (ls : List Link) :
    Exclusive ls ↔
      (ls.Pairwise fun a b => a.isFlow = true → b.isFlow = true → a.source ≠ b.source) ∧
      ls.Pairwise fun a b => a.isFlow = false → b.isFlow = false → a.sink ≠ b.sink := by
  rw [Exclusive, ← List.pairwise_and_iff]
  apply List.Pairwise.iff
  intro a b
  simp only [Clash, not_or, not_and, ne_eq]

theorem Exclusive.place_iff {l : Link} {ls : List Link} (h : Exclusive ls) (hl : l ∉ ls) :
    Exclusive (place l ls) ↔ ∀ m ∈ l.spared ls, ¬ l.Clash m := by
  have hsymm : ∀ {a b : Link}, ¬ a.Clash b → ¬ b.Clash a := fun hab hba => hab hba.symm
  rw [Exclusive, (perm_place hl).pairwise_iff hsymm, List.pairwise_cons]
  exact and_iff_left (h.sublist (l.spared_sublist ls))

/-- Ports that are for flow only or for values only stay exclusive. -/
theorem Exclusive.place_of_uniform {l : Link} {ls : List Link} (h : Exclusive ls) (hl : l ∉ ls)
    (hsource : ∀ m ∈ ls, m.source = l.source → m.isFlow = l.isFlow)
    (hsink : ∀ m ∈ ls, m.sink = l.sink → m.isFlow = l.isFlow) : Exclusive (place l ls) := by
  rw [h.place_iff hl]
  intro m hm hclash
  rcases hclash with ⟨hflow, _, heq⟩ | ⟨hvalue, _, heq⟩
  · have honly : ls.Pairwise fun a b => ¬ (decide (a.source = l.source) = true ∧
        decide (b.source = l.source) = true) := by
      refine List.Pairwise.imp_of_mem ?_ h
      intro a b ha hb hclash hboth
      simp only [decide_eq_true_eq] at hboth
      exact hclash (.inl ⟨(hsource a ha hboth.1).trans hflow, (hsource b hb hboth.2).trans hflow,
        hboth.1.trans hboth.2.symm⟩)
    simp only [spared, hflow, if_true] at hm
    have hne := eq_false_of_mem_eraseP honly m hm
    simp [heq] at hne
  · have honly : (ls.eraseP (·.source = l.source)).Pairwise fun a b =>
        ¬ (decide (a.sink = l.sink) = true ∧ decide (b.sink = l.sink) = true) := by
      refine List.Pairwise.imp_of_mem ?_ (h.sublist List.eraseP_sublist)
      intro a b ha hb hclash hboth
      simp only [decide_eq_true_eq] at hboth
      exact hclash (.inr ⟨(hsink a (List.mem_of_mem_eraseP ha) hboth.1).trans hvalue,
        (hsink b (List.mem_of_mem_eraseP hb) hboth.2).trans hvalue, hboth.1.trans hboth.2.symm⟩)
    simp only [spared, hvalue] at hm
    have hne := eq_false_of_mem_eraseP honly m hm
    simp [heq] at hne

/-- The links from other ports into the sink of a link, in their order. -/
def rivals (l : Link) (ls : List Link) : List Link :=
  (ls.filter (·.source ≠ l.source)).filter (·.sink = l.sink)

/-- A value link makes room by driving out a flow link, and the value link behind it stays. -/
def Overlooks (l : Link) (ls : List Link) : Prop :=
  l.isFlow = false ∧
    ∃ first others, l.rivals ls = first :: others ∧ first.isFlow = true ∧ ∃ m ∈ others, m.isFlow = false

theorem mem_rivals {l m : Link} {ls : List Link} :
    m ∈ l.rivals ls ↔ m ∈ ls ∧ m.source ≠ l.source ∧ m.sink = l.sink := by
  simp only [rivals, List.mem_filter, decide_eq_true_eq, and_assoc]

/-- Where an output has one link at most, that link is the one to go. -/
theorem eraseP_source_eq_filter (l : Link) {ls : List Link} (h : (ls.map source).Nodup) :
    ls.eraseP (·.source = l.source) = ls.filter (·.source ≠ l.source) := by
  induction ls with
  | nil => rfl
  | cons m ls ih =>
    rw [List.map_cons, List.nodup_cons] at h
    by_cases hsource : m.source = l.source
    · have hall : ls.filter (·.source ≠ l.source) = ls := by
        apply List.filter_eq_self.mpr
        intro x hx
        have hne : x.source ≠ m.source := fun heq => h.1 (List.mem_map.mpr ⟨x, hx, heq⟩)
        simpa [hsource] using hne
      rw [List.eraseP_cons_of_pos (by simp [hsource]), List.filter_cons_of_neg (by simp [hsource]), hall]
    · rw [List.eraseP_cons_of_neg (by simp [hsource]), List.filter_cons_of_pos (by simp [hsource]), ih h.2]

theorem nodup_sources_place {l : Link} {ls : List Link} (h : (ls.map source).Nodup) (hl : l ∉ ls) :
    ((place l ls).map source).Nodup := by
  rw [((perm_place hl).map source).nodup_iff, List.map_cons, List.nodup_cons]
  refine ⟨?_, ((l.spared_sublist ls).map source).nodup h⟩
  intro hin
  obtain ⟨m, hm, hsource⟩ := List.mem_map.mp hin
  have hsub : (l.spared ls).Sublist (ls.filter (·.source ≠ l.source)) := by
    rw [← eraseP_source_eq_filter l h]
    simp only [spared]
    split
    · exact List.Sublist.refl _
    · exact List.eraseP_sublist
  have hne := (List.mem_filter.mp (hsub.mem hm)).2
  simp [hsource] at hne

/-- The rivals that a value link spares are all but the first. -/
theorem clash_spared_iff {l : Link} {ls : List Link} (hsources : (ls.map source).Nodup)
    (hvalue : l.isFlow = false) :
    (∃ m ∈ l.spared ls, l.Clash m) ↔ ∃ m ∈ (l.rivals ls).tail, m.isFlow = false := by
  have htail : (l.spared ls).filter (·.sink = l.sink) = (l.rivals ls).tail := by
    simp only [spared, hvalue, rivals, ← filter_eraseP, eraseP_source_eq_filter l hsources]
    rfl
  rw [← htail]
  constructor
  · intro h
    obtain ⟨m, hm, hclash⟩ := h
    rcases hclash with ⟨hflow, _, _⟩ | ⟨_, hm', hsink⟩
    · simp [hvalue] at hflow
    · exact ⟨m, List.mem_filter.mpr ⟨hm, by simp [hsink]⟩, hm'⟩
  · intro h
    obtain ⟨m, hm, hm'⟩ := h
    obtain ⟨hm, hsink⟩ := List.mem_filter.mp hm
    exact ⟨m, hm, .inr ⟨hvalue, hm', (of_decide_eq_true hsink).symm⟩⟩

/-- A rival behind another one is overlooked exactly when the first carries control. -/
theorem overlooks_iff {l : Link} {ls : List Link} (h : Exclusive ls) (hvalue : l.isFlow = false) :
    l.Overlooks ls ↔ ∃ m ∈ (l.rivals ls).tail, m.isFlow = false := by
  simp only [Overlooks, hvalue, true_and]
  constructor
  · intro hover
    obtain ⟨first, others, hrivals, _, m, hm, hm'⟩ := hover
    exact ⟨m, by simpa [hrivals] using hm, hm'⟩
  · intro hbehind
    obtain ⟨m, hm, hm'⟩ := hbehind
    cases hrivals : l.rivals ls with
    | nil => simp [hrivals] at hm
    | cons first others =>
      rw [hrivals, List.tail_cons] at hm
      refine ⟨first, others, rfl, ?_, m, hm, hm'⟩
      -- two value links into the sink would clash
      by_contra hfirst
      have hsub : (l.rivals ls).Sublist ls := List.filter_sublist.trans List.filter_sublist
      have hpairs : (first :: others).Pairwise fun a b => ¬ a.Clash b :=
        hrivals ▸ List.Pairwise.sublist hsub h
      have hsink : ∀ x ∈ first :: others, x.sink = l.sink := by
        intro x hx
        exact (mem_rivals.mp (hrivals ▸ hx)).2.2
      refine (List.pairwise_cons.mp hpairs).1 m hm (.inr ⟨by simpa using hfirst, hm', ?_⟩)
      rw [hsink first List.mem_cons_self, hsink m (List.mem_cons_of_mem _ hm)]

/-- An added link keeps the ports exclusive unless it overlooks a link. -/
theorem Exclusive.place_iff_not_overlooks {l : Link} {ls : List Link} (h : Exclusive ls)
    (hsources : (ls.map source).Nodup) (hl : l ∉ ls) :
    Exclusive (place l ls) ↔ ¬ l.Overlooks ls := by
  rw [h.place_iff hl]
  cases hflow : l.isFlow with
  | true =>
    have hfree := (List.nodup_cons.mp
      (((perm_place hl).map source).nodup_iff.mp (nodup_sources_place hsources hl))).1
    refine iff_of_true ?_ ?_
    · intro m hm hclash
      rcases hclash with ⟨_, _, heq⟩ | ⟨hvalue, _, _⟩
      · exact hfree (List.mem_map.mpr ⟨m, hm, heq.symm⟩)
      · simp [hflow] at hvalue
    · intro hover
      exact absurd (hflow.symm.trans hover.1) (by decide)
  | false =>
    rw [overlooks_iff h hflow, ← clash_spared_iff hsources hflow]
    simp only [not_exists, not_and]

theorem exclusive_of_nodup_sources {ls : List Link} (h : (ls.map source).Nodup) :
    Exclusive ls ↔ ls.Pairwise fun a b => a.isFlow = false → b.isFlow = false → a.sink ≠ b.sink := by
  rw [exclusive_iff]
  refine and_iff_right ((List.pairwise_map.mp h).imp ?_)
  intro a b hne _ _
  exact hne

end Link

namespace LinkEdit

/-- Applies edits one after the other. -/
def run (ls : List Link) (es : List LinkEdit) : List Link := es.foldl applyD ls

theorem run_take_succ (ls : List Link) (es : List LinkEdit) (k : Nat) :
    run ls (es.take (k + 1)) = match es[k]? with
      | some e => e.applyD (run ls (es.take k))
      | none => run ls (es.take k) := by
  cases hk : es[k]? <;> simp [run, List.take_add_one, hk, List.foldl_append]

/-- An edit adds a link that is not there, or else only takes links away. -/
theorem applyD_cases (ls : List Link) (e : LinkEdit) :
    (∃ l, e = add l ∧ l ∉ ls ∧ e.applyD ls = l.place ls) ∨
      ((∀ l, e = add l → l ∈ ls) ∧ (e.applyD ls).Sublist ls) := by
  cases e with
  | add l =>
    by_cases hl : l ∈ ls
    · exact .inr ⟨fun m heq => add.inj heq ▸ hl, by simp [applyD, apply, hl]⟩
    · exact .inl ⟨l, rfl, hl, by simp [applyD, apply, hl]⟩
  | remove l => exact .inr ⟨by simp, List.erase_sublist⟩
  | removeRelated id => exact .inr ⟨by simp, List.filter_sublist⟩

theorem nodup_sources_applyD {ls : List Link} (h : (ls.map Link.source).Nodup) (e : LinkEdit) :
    ((e.applyD ls).map Link.source).Nodup := by
  rcases applyD_cases ls e with ⟨l, _, hl, heq⟩ | ⟨_, hsub⟩
  · rw [heq]
    exact Link.nodup_sources_place h hl
  · exact (hsub.map Link.source).nodup h

theorem nodup_sources_run {ls : List Link} (h : (ls.map Link.source).Nodup) (es : List LinkEdit) :
    ((run ls es).map Link.source).Nodup := by
  induction es generalizing ls with
  | nil => exact h
  | cons e es ih => exact ih (nodup_sources_applyD h e)

/-- One edit keeps the ports exclusive unless it adds a link that overlooks another. -/
theorem exclusive_applyD_iff {ls : List Link} (h : Link.Exclusive ls)
    (hsources : (ls.map Link.source).Nodup) (e : LinkEdit) :
    Link.Exclusive (e.applyD ls) ↔ ∀ l, e = add l → l ∉ ls → ¬ l.Overlooks ls := by
  rcases applyD_cases ls e with ⟨l, rfl, hl, heq⟩ | ⟨hold, hsub⟩
  · rw [heq, h.place_iff_not_overlooks hsources hl]
    constructor
    · intro hover m hm _
      exact add.inj hm ▸ hover
    · intro hall
      exact hall l rfl hl
  · exact iff_of_true (h.sublist hsub) fun l hadd hl => absurd (hold l hadd) hl

/-- Along any edits of an empty list no output port has two links. No input port has two value links
either, as long as no value link is added that drives out a flow link and overlooks a value link. -/
theorem exclusive_throughout_iff (es : List LinkEdit) :
    (∀ k, (run [] (es.take k)).Pairwise fun a b => a.source ≠ b.source) ∧
    ((∀ k, (run [] (es.take k)).Pairwise fun a b =>
        a.isFlow = false → b.isFlow = false → a.sink ≠ b.sink) ↔
      ∀ k l, es[k]? = some (add l) → l ∉ run [] (es.take k) → ¬ l.Overlooks (run [] (es.take k))) := by
  have hsources : ∀ k, ((run [] (es.take k)).map Link.source).Nodup := fun k =>
    nodup_sources_run (by simp) (es.take k)
  refine ⟨fun k => List.pairwise_map.mp (hsources k), ?_⟩
  simp only [← Link.exclusive_of_nodup_sources (hsources _)]
  constructor
  · intro hex k l hk hl
    have hstep := hex (k + 1)
    rw [run_take_succ, hk] at hstep
    exact (exclusive_applyD_iff (hex k) (hsources k) _).mp hstep l rfl hl
  · intro hadds k
    induction k with
    | zero => exact List.Pairwise.nil
    | succ k ih =>
      rw [run_take_succ]
      split
      · next e hk =>
        refine (exclusive_applyD_iff ih (hsources k) e).mpr ?_
        intro l hadd
        exact hadds k l (hadd ▸ hk)
      · exact ih

/-- A flow link takes the place of an earlier one, in front of a value link into the same port. The
value link added last then drives out the flow link only. -/
theorem two_values_into_one_port :
    let ls := run []
      [add ⟨⟨1, 0⟩, ⟨9, 0⟩, .flow⟩, add ⟨⟨2, 0⟩, ⟨5, 0⟩, .value .uint64⟩,
       add ⟨⟨1, 0⟩, ⟨5, 0⟩, .flow⟩, add ⟨⟨3, 0⟩, ⟨5, 0⟩, .value .uint64⟩]
    ls = [⟨⟨3, 0⟩, ⟨5, 0⟩, .value .uint64⟩, ⟨⟨2, 0⟩, ⟨5, 0⟩, .value .uint64⟩] ∧
      ¬ ls.Pairwise fun a b => a.isFlow = false → b.isFlow = false → a.sink ≠ b.sink := by
  decide

end LinkEdit

end FlowBasic
