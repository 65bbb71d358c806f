import FlowBasic.Proofs.ProjectDocument
import Mathlib.Data.List.Nodup
import Mathlib.Data.List.Perm.Basic

namespace FlowBasic

/-- What the first gives, the second gives too, or else it gives nothing. -/
def Follows {α : Type} (kept : Bool) (x y : Option α) : Prop := ∀ a, x = some a → y = if kept then some a else none

namespace Follows

variable {α β : Type} {kept kept' : Bool} {x y : Option α}

theorem refl (x : Option α) : Follows true x x := fun _ h => h

theorem bind {f g : α → Option β} (h : Follows kept x y) (hfg : ∀ a, Follows kept' (f a) (g a)) :
    Follows (kept && kept') (x >>= f) (y >>= g) := by
  intro b hb
  obtain ⟨a, ha, hfa⟩ := Option.bind_eq_some_iff.mp hb
  rw [h a ha]
  cases kept with
  | true => exact hfg a b hfa
  | false => rfl

theorem map (f : α → β) (h : Follows kept x y) : Follows kept (x.map f) (y.map f) := by
  intro b hb
  obtain ⟨a, ha, rfl⟩ := Option.map_eq_some_iff.mp hb
  rw [h a ha]
  cases kept <;> rfl

/-- Only one of the values is another one. -/
theorem mapM_middle {γ : Type} {read : γ → Option α} {c c' : γ} (h : Follows kept (read c) (read c'))
    (before after : List γ) : Follows kept ((before ++ c :: after).mapM read) ((before ++ c' :: after).mapM read) := by
  have hmiddle : Follows kept ((c :: after).mapM read) ((c' :: after).mapM read) := by
    rw [List.mapM_cons, List.mapM_cons, ← Bool.and_true kept]
    exact h.bind fun _ => refl _
  rw [List.mapM_append, List.mapM_append, ← Bool.true_and kept, ← Bool.and_true (true && kept), Bool.and_assoc]
  exact (refl _).bind fun _ => hmiddle.bind fun _ => refl _

end Follows

/-- Where a value stands: within a value that is held back or not, and how many brackets it may open within
each other. -/
structure Place where
  held : Bool
  room : Nat

namespace Place

def document : Place := ⟨false, 127⟩

/-- The place of the parts of a value. -/
def inner (p : Place) : Place := ⟨p.held, p.room - 1⟩

def hold (p : Place) : Place := ⟨true, p.room⟩

/-- How a value is read there. -/
def mode (p : Place) : Mode := if p.held then .held else .direct p.room

/-- Whether a value may be written there: what is held back has to be readable as a whole. -/
def fits (p : Place) (v : Json) : Bool := !p.held || v.readable p.room

@[simp]
theorem mode_inner (p : Place) : p.inner.mode = p.mode.inner := by
  cases h : p.held <;> simp [mode, inner, Mode.inner, h]

end Place

/-- A declared field of a record, and the values for which it may be left out. -/
structure Declared (σ : Type) where
  name : String
  shape : σ
  isDefault : Json → Prop

/-- Where the records are in a value: in a value that is none itself there are none. -/
inductive Shape where
  | value
  | record (fields : List (Declared Shape))
  | tagged (variants : List (String × List (Declared Shape)))
  | table (entry : Shape)
  | list (item : Shape)

namespace Declared

def names (fields : List (Declared Shape)) : List String := fields.map Declared.name

/-- A field that has to be there. -/
def needed (name : String) (shape : Shape) : Declared Shape := ⟨name, shape, fun _ => False⟩

/-- A field that may be left out, with its default. -/
def spare (name : String) (shape : Shape) (default : Json) : Declared Shape := ⟨name, shape, (· = default)⟩

/-- The field that holds the tag of a tagged value. -/
def tag : Declared Shape := needed "type" .value

end Declared

/-- The tag of a tagged value, which says what fields it has. -/
def Json.HasTag (m : Mode) (names : List String) (tag : String) : Json → Prop
  | .array (t :: _) => m.tag? names t = some tag
  | .object fields => ∃ f ∈ fields, f.1.text? = some "type" ∧ m.tag? names f.2 = some tag
  | _ => False

/-- One change of presentation, somewhere in a value of a shape. The flag says whether what it adds may be
written there. -/
inductive Change : Shape → Place → Bool → Json → Json → Prop
  /-- The fields of a record in another order. -/
  | permute {fields : List (Declared Shape)} {p : Place} {fs fs' : List (Quoted × Json)} (h : fs.Perm fs') :
      Change (.record fields) p true (.object fs) (.object fs')
  /-- One more field in a record, under a name that is not declared. -/
  | add {fields : List (Declared Shape)} {p : Place} {fs : List (Quoted × Json)} {k : Quoted} {name : String}
      {v : Json} (hk : k.text? = some name) (hname : name ∉ Declared.names fields) :
      Change (.record fields) p (p.inner.fits v) (.object fs) (.object ((k, v) :: fs))
  /-- A field of a record less, whose value is the default. -/
  | leaveOut {fields : List (Declared Shape)} {p : Place} {before after : List (Quoted × Json)} {k : Quoted}
      {v : Json} {f : Declared Shape} (hf : f ∈ fields) (hk : k.text? = some f.name) (hv : f.isDefault v) :
      Change (.record fields) p true (.object (before ++ (k, v) :: after)) (.object (before ++ after))
  /-- A change in a declared field of a record. -/
  | field {fields : List (Declared Shape)} {p : Place} {ok : Bool} {before after : List (Quoted × Json)} {k : Quoted}
      {v v' : Json} {f : Declared Shape} (hf : f ∈ fields) (hk : k.text? = some f.name)
      (h : Change f.shape p.inner ok v v') :
      Change (.record fields) p ok (.object (before ++ (k, v) :: after)) (.object (before ++ (k, v') :: after))
  /-- A change in a record that is written as an array, which gives the fields by their places. -/
  | item {fields : List (Declared Shape)} {p : Place} {ok : Bool} {before after : List Json} {v v' : Json}
      {f : Declared Shape} (hf : fields[before.length]? = some f) (h : Change f.shape p.inner ok v v') :
      Change (.record fields) p ok (.array (before ++ v :: after)) (.array (before ++ v' :: after))
  /-- The last item of such an array less, whose value is the default. -/
  | leaveOff {fields : List (Declared Shape)} {p : Place} {before : List Json} {v : Json} {f : Declared Shape}
      (hf : fields[before.length]? = some f) (hv : f.isDefault v) :
      Change (.record fields) p true (.array (before ++ [v])) (.array before)
  /-- A tagged value is a record of its tag and of the fields that the tag calls for; it is held back. -/
  | tagged {variants : List (String × List (Declared Shape))} {fields : List (Declared Shape)} {p : Place} {ok : Bool}
      {tag : String} {v v' : Json} (hvariant : (tag, fields) ∈ variants)
      (htag : v.HasTag p.mode (variants.map Prod.fst) tag)
      (h : Change (.record (Declared.tag :: fields)) p.hold ok v v') : Change (.tagged variants) p ok v v'
  /-- A change in a value of a table, whose entries stay in order. -/
  | entry {entry : Shape} {p : Place} {ok : Bool} {before after : List (Quoted × Json)} {k : Quoted} {v v' : Json}
      (h : Change entry p.inner ok v v') :
      Change (.table entry) p ok (.object (before ++ (k, v) :: after)) (.object (before ++ (k, v') :: after))
  /-- A change in an item of a list. -/
  | element {item : Shape} {p : Place} {ok : Bool} {before after : List Json} {v v' : Json}
      (h : Change item p.inner ok v v') :
      Change (.list item) p ok (.array (before ++ v :: after)) (.array (before ++ v' :: after))

namespace Json

theorem readableFields_iff {room : Nat} {fields : List (Quoted × Json)} :
    readableFields room fields = true ↔ ∀ f ∈ fields, f.1.chars?.isSome = true ∧ f.2.readable room = true := by
  induction fields with
  | nil => simp [readableFields]
  | cons f fields ih => simp [readableFields, ih]

theorem readableItems_iff {room : Nat} {items : List Json} :
    readableItems room items = true ↔ ∀ v ∈ items, v.readable room = true := by
  induction items with
  | nil => simp [readableItems]
  | cons v items ih => simp [readableItems, ih]

theorem readable_object_iff {room : Nat} {fields : List (Quoted × Json)} :
    (object fields).readable room = true ↔
      0 < room ∧ ∀ f ∈ fields, f.1.chars?.isSome = true ∧ f.2.readable (room - 1) = true := by
  cases room with
  | zero => simp [readable]
  | succ room => simp [readable, readableFields_iff]

theorem readable_array_iff {room : Nat} {items : List Json} :
    (array items).readable room = true ↔ 0 < room ∧ ∀ v ∈ items, v.readable (room - 1) = true := by
  cases room with
  | zero => simp [readable]
  | succ room => simp [readable, readableItems_iff]

/-- Of a value that is readable, one part decides whether it stays so. -/
theorem readable_object_middle {room : Nat} {before after : List (Quoted × Json)} {k : Quoted} {v v' : Json}
    (h : (object (before ++ (k, v) :: after)).readable room = true) :
    v.readable (room - 1) = true ∧
      (object (before ++ (k, v') :: after)).readable room = v'.readable (room - 1) := by
  simp only [readable_object_iff, List.forall_mem_append, List.forall_mem_cons] at h
  obtain ⟨hroom, hbefore, ⟨hk, hv⟩, hafter⟩ := h
  refine ⟨hv, Bool.eq_iff_iff.mpr ?_⟩
  simp only [readable_object_iff, List.forall_mem_append, List.forall_mem_cons]
  exact ⟨fun h => h.2.2.1.2, fun hv' => ⟨hroom, hbefore, ⟨hk, hv'⟩, hafter⟩⟩

theorem readable_array_middle {room : Nat} {before after : List Json} {v v' : Json}
    (h : (array (before ++ v :: after)).readable room = true) :
    v.readable (room - 1) = true ∧
      (array (before ++ v' :: after)).readable room = v'.readable (room - 1) := by
  simp only [readable_array_iff, List.forall_mem_append, List.forall_mem_cons] at h
  obtain ⟨hroom, hbefore, hv, hafter⟩ := h
  refine ⟨hv, Bool.eq_iff_iff.mpr ?_⟩
  simp only [readable_array_iff, List.forall_mem_append, List.forall_mem_cons]
  exact ⟨fun h => h.2.2.1, fun hv' => ⟨hroom, hbefore, hv', hafter⟩⟩

end Json

theorem Quoted.isSome_chars?_of_text? {q : Quoted} {t : String} (h : q.text? = some t) :
    q.chars?.isSome = true := by
  have hsome := congrArg Option.isSome h
  rwa [text?, Option.isSome_map] at hsome

/-- A value that can be held back still can after a change, if what is added can. -/
theorem Change.readable {s : Shape} {p : Place} {ok : Bool} {v v' : Json} (h : Change s p ok v v')
    (hheld : p.held = true) (hv : v.readable p.room = true) : v'.readable p.room = ok := by
  induction h with
  | permute hperm =>
    rw [Json.readable_object_iff] at hv ⊢
    exact ⟨hv.1, fun f hf => hv.2 f (hperm.mem_iff.mpr hf)⟩
  | @add _ p _ _ _ w hk =>
    have hfits : p.inner.fits w = w.readable (p.room - 1) := by simp [Place.fits, Place.inner, hheld]
    rw [hfits, Bool.eq_iff_iff]
    simp only [Json.readable_object_iff, List.forall_mem_cons] at hv ⊢
    exact ⟨fun h => h.2.1.2, fun hw => ⟨hv.1, ⟨Quoted.isSome_chars?_of_text? hk, hw⟩, hv.2⟩⟩
  | leaveOut =>
    simp only [Json.readable_object_iff, List.forall_mem_append, List.forall_mem_cons] at hv ⊢
    exact ⟨hv.1, hv.2.1, hv.2.2.2⟩
  | field _ _ _ ih =>
    obtain ⟨hpart, hwhole⟩ := Json.readable_object_middle hv
    exact hwhole.trans (ih hheld hpart)
  | item _ _ ih =>
    obtain ⟨hpart, hwhole⟩ := Json.readable_array_middle hv
    exact hwhole.trans (ih hheld hpart)
  | leaveOff =>
    simp only [Json.readable_array_iff, List.forall_mem_append] at hv ⊢
    exact ⟨hv.1, hv.2.1⟩
  | tagged _ _ _ ih => exact ih rfl hv
  | entry _ ih =>
    obtain ⟨hpart, hwhole⟩ := Json.readable_object_middle hv
    exact hwhole.trans (ih hheld hpart)
  | element _ ih =>
    obtain ⟨hpart, hwhole⟩ := Json.readable_array_middle hv
    exact hwhole.trans (ih hheld hpart)

/-- What a change of a record does to a declared field, and whether its value is kept. Where all is held back
already, nothing is lost. -/
inductive FieldChange (p : Place) (f : Declared Shape) : Bool → Option Json → Option Json → Prop
  | same (x : Option Json) : FieldChange p f true x x
  | changed {ok : Bool} {v v' : Json} (h : Change f.shape p ok v v') :
      FieldChange p f (p.held || ok) (some v) (some v')
  | leftOut {v : Json} (h : f.isDefault v) : FieldChange p f true (some v) none

/-- What a change of a record does to its declared fields, one by one. -/
inductive FieldChanges (p : Place) :
    List (Declared Shape) → Bool → List (Option Json) → List (Option Json) → Prop
  | nil : FieldChanges p [] true [] []
  | cons {f : Declared Shape} {fields : List (Declared Shape)} {kept kept' : Bool} {x y : Option Json}
      {xs ys : List (Option Json)} (hfirst : FieldChange p f kept x y) (hrest : FieldChanges p fields kept' xs ys) :
      FieldChanges p (f :: fields) (kept && kept') (x :: xs) (y :: ys)

theorem FieldChanges.refl {p : Place} {fields : List (Declared Shape)} {xs : List (Option Json)}
    (h : xs.length = fields.length) : FieldChanges p fields true xs xs := by
  induction fields generalizing xs with
  | nil =>
    obtain rfl := List.length_eq_zero_iff.mp h
    exact .nil
  | cons f fields ih =>
    obtain ⟨x, xs, rfl⟩ := List.exists_cons_of_length_eq_add_one h
    exact .cons (.same x) (ih (Nat.succ.inj h))

theorem FieldChanges.middle {p : Place} {f : Declared Shape} {kept : Bool} {x y : Option Json}
    (h : FieldChange p f kept x y) {fields : List (Declared Shape)} {before after : List (Option Json)}
    (hlength : (before ++ x :: after).length = fields.length) (hf : fields[before.length]? = some f) :
    FieldChanges p fields kept (before ++ x :: after) (before ++ y :: after) := by
  induction before generalizing fields with
  | nil =>
    obtain ⟨g, fields, rfl⟩ := List.exists_cons_of_length_eq_add_one hlength.symm
    obtain rfl : g = f := by simpa using hf
    exact Bool.and_true kept ▸ .cons h (.refl (Nat.succ.inj hlength))
  | cons b before ih =>
    obtain ⟨g, fields, rfl⟩ := List.exists_cons_of_length_eq_add_one hlength.symm
    exact .cons (.same b) (ih (Nat.succ.inj hlength) (by simpa using hf))

theorem mapM_eq_some_iff {α β : Type} {read : α → Option β} {l : List α} {r : List β} :
    l.mapM read = some r ↔ List.Forall₂ (fun a b => read a = some b) l r := by
  induction l generalizing r with
  | nil => simp [eq_comm]
  | cons a l ih =>
    simp only [List.mapM_cons, Option.bind_eq_bind, Option.bind_eq_some_iff, ih, List.forall₂_cons_left_iff]
    constructor
    · rintro ⟨b, hb, bs, hbs, h⟩
      exact ⟨b, bs, hb, hbs, (Option.some.inj h).symm⟩
    · rintro ⟨b, bs, hb, hbs, rfl⟩
      exact ⟨b, hb, bs, hbs, rfl⟩

theorem exists_of_forall₂_middle {α β : Type} {R : α → β → Prop} {before after : List α} {a : α} {r : List β}
    (h : List.Forall₂ R (before ++ a :: after) r) :
    ∃ before' b after', List.Forall₂ R before before' ∧ R a b ∧ List.Forall₂ R after after' ∧
      r = before' ++ b :: after' := by
  induction before generalizing r with
  | nil =>
    obtain ⟨b, after', hb, hafter, rfl⟩ := List.forall₂_cons_left_iff.mp h
    exact ⟨[], b, after', .nil, hb, hafter, rfl⟩
  | cons c before ih =>
    obtain ⟨d, r, hd, hr, rfl⟩ := List.forall₂_cons_left_iff.mp h
    obtain ⟨before', b, after', hbefore, hb, hafter, rfl⟩ := ih hr
    exact ⟨d :: before', b, after', .cons hd hbefore, hb, hafter, rfl⟩

namespace Json

/-- A field under the name that its key stands for. -/
def Named (f : Quoted × Json) (e : String × Json) : Prop := f.1.text? = some e.1 ∧ f.2 = e.2

theorem named?_object_iff {fs : List (Quoted × Json)} {es : List (String × Json)} :
    (object fs).named? = some es ↔ List.Forall₂ Named fs es := by
  have hfield : ∀ (f : Quoted × Json) (e : String × Json),
      (do return (← f.1.text?, f.2) : Option (String × Json)) = some e ↔ Named f e := by
    intro f e
    cases hname : f.1.text? <;> simp [Named, hname, Prod.ext_iff]
  rw [named?, mapM_eq_some_iff]
  simp only [hfield]

/-- One field among the others, which keep their names with another value of it or without it. -/
theorem named?_middle {before after : List (Quoted × Json)} {k : Quoted} {v : Json} {es : List (String × Json)}
    (h : (object (before ++ (k, v) :: after)).named? = some es) :
    ∃ name es₁ es₂, k.text? = some name ∧ es = es₁ ++ (name, v) :: es₂ ∧
      (object (before ++ after)).named? = some (es₁ ++ es₂) ∧
      ∀ v', (object (before ++ (k, v') :: after)).named? = some (es₁ ++ (name, v') :: es₂) := by
  obtain ⟨es₁, ⟨name, _⟩, es₂, hes₁, ⟨hname, rfl⟩, hes₂, rfl⟩ :=
    exists_of_forall₂_middle (named?_object_iff.mp h)
  refine ⟨name, es₁, es₂, hname, rfl, named?_object_iff.mpr (List.rel_append hes₁ hes₂), fun v' => ?_⟩
  exact named?_object_iff.mpr (List.rel_append hes₁ (.cons ⟨hname, rfl⟩ hes₂))

theorem only?_eq_some_iff {es : List (String × Json)} {name : String} {x : Option Json} :
    only? es name = some x ↔ (es.filter (·.1 = name)).map Prod.snd = x.toList := by
  rw [only?]
  split
  · next hnone => cases x <;> simp [hnone]
  · next f hone => cases x <;> simp [hone]
  · next hnone hone =>
    cases x with
    | none => simpa using hnone
    | some v =>
      simp only [reduceCtorEq, Option.toList_some, false_iff]
      intro hmap
      obtain ⟨f, hf, -⟩ := List.map_eq_singleton_iff.mp hmap
      exact hone f hf

theorem only?_perm {es es' : List (String × Json)} (h : es.Perm es') {name : String} {x : Option Json}
    (hx : only? es name = some x) : only? es' name = some x := by
  rw [only?_eq_some_iff] at hx ⊢
  have hperm := (h.filter fun e => decide (e.1 = name)).map Prod.snd
  rw [hx] at hperm
  cases x with
  | none => exact List.nil_perm.mp hperm
  | some v => exact (List.singleton_perm.mp hperm).symm

theorem only?_middle_iff {before after : List (String × Json)} {name : String} {v : Json} {x : Option Json} :
    only? (before ++ (name, v) :: after) name = some x ↔
      x = some v ∧ only? (before ++ after) name = some none := by
  simp only [only?_eq_some_iff, List.filter_append, List.map_append]
  rw [List.filter_cons_of_pos (by simp)]
  cases x with
  | none => simp
  | some w =>
    constructor
    · intro h
      obtain ⟨hbefore, hmiddle⟩ | ⟨-, hmiddle⟩ := List.append_eq_singleton_iff.mp h
      · obtain ⟨rfl, hafter⟩ := List.cons.inj hmiddle
        exact ⟨rfl, List.append_eq_nil_iff.mpr ⟨hbefore, hafter⟩⟩
      · cases hmiddle
    · rintro ⟨hw, hnone⟩
      cases hw
      obtain ⟨hbefore, hafter⟩ := List.append_eq_nil_iff.mp hnone
      rw [hbefore, List.map_cons, hafter]
      rfl

theorem only?_middle_of_ne {before after : List (String × Json)} {e : String × Json} {name : String}
    (h : e.1 ≠ name) : only? (before ++ e :: after) name = only? (before ++ after) name := by
  simp only [only?, List.filter_append]
  rw [List.filter_cons_of_neg (by simpa using h)]

theorem fields?_array_eq_some_iff {names : List String} {items : List Json} {xs : List (Option Json)} :
    (array items).fields? names = some xs ↔
      items.length ≤ names.length ∧ xs = items.map some ++ List.replicate (names.length - items.length) none := by
  rw [fields?, ite_eq_iff]
  simp [eq_comm]

end Json

namespace Declared

theorem eq_of_name_eq {fields : List (Declared Shape)} (hnames : (names fields).Nodup)
    {f g : Declared Shape} (hf : f ∈ fields) (hg : g ∈ fields) (h : f.name = g.name) : f = g :=
  List.inj_on_of_nodup_map hnames hf hg h

theorem all_of_name {fields : List (Declared Shape)} {g : Declared Shape} (hg : g ∈ fields) (kept : Bool) :
    fields.all (fun f => f.name != g.name || kept) = kept := by
  cases kept with
  | true => simp
  | false =>
    rw [List.all_eq_false]
    exact ⟨g, hg, by simp⟩

end Declared

/-- The declared fields are found again, each with the change that it went through. -/
theorem exists_fieldChanges {fields : List (Declared Shape)} {p : Place} {es es' : List (String × Json)}
    {kept : Declared Shape → Bool}
    (h : ∀ f ∈ fields, ∀ x, Json.only? es f.name = some x →
      ∃ y, Json.only? es' f.name = some y ∧ FieldChange p f (kept f) x y)
    {xs : List (Option Json)} (hxs : (Declared.names fields).mapM (Json.only? es) = some xs) :
    ∃ ys, (Declared.names fields).mapM (Json.only? es') = some ys ∧
      FieldChanges p fields (fields.all kept) xs ys := by
  simp only [mapM_eq_some_iff] at hxs ⊢
  induction fields generalizing xs with
  | nil =>
    cases hxs
    exact ⟨[], .nil, .nil⟩
  | cons f fields ih =>
    obtain ⟨x, xs, hx, hothers, rfl⟩ := List.forall₂_cons_left_iff.mp hxs
    obtain ⟨y, hy, hfirst⟩ := h f List.mem_cons_self x hx
    obtain ⟨ys, hys, hrest⟩ := ih (fun g hg => h g (List.mem_cons_of_mem _ hg)) hothers
    exact ⟨y :: ys, .cons hy hys, .cons hfirst hrest⟩

/-- No declared field is affected. -/
theorem fieldChanges_of_same {fields : List (Declared Shape)} {p : Place} {es es' : List (String × Json)}
    (h : ∀ f ∈ fields, ∀ x, Json.only? es f.name = some x → Json.only? es' f.name = some x)
    {xs : List (Option Json)} (hxs : (Declared.names fields).mapM (Json.only? es) = some xs) :
    ∃ ys, (Declared.names fields).mapM (Json.only? es') = some ys ∧ FieldChanges p fields true xs ys := by
  have hall : fields.all (fun _ => true) = true := by simp
  exact hall ▸ exists_fieldChanges (fun f hf x hx => ⟨x, h f hf x hx, .same x⟩) hxs

/-- Only one declared field is affected. -/
theorem fieldChanges_of_field {fields : List (Declared Shape)} (hnames : (Declared.names fields).Nodup) {p : Place}
    {g : Declared Shape} (hg : g ∈ fields) {kept : Bool} {x₀ y₀ : Option Json} (h : FieldChange p g kept x₀ y₀)
    {es es' : List (String × Json)}
    (hfield : ∀ x, Json.only? es g.name = some x → x = x₀ ∧ Json.only? es' g.name = some y₀)
    (hother : ∀ name, g.name ≠ name → Json.only? es' name = Json.only? es name)
    {xs : List (Option Json)} (hxs : (Declared.names fields).mapM (Json.only? es) = some xs) :
    ∃ ys, (Declared.names fields).mapM (Json.only? es') = some ys ∧ FieldChanges p fields kept xs ys := by
  refine Declared.all_of_name hg kept ▸ exists_fieldChanges (fun f hf x hx => ?_) hxs
  by_cases heq : g.name = f.name
  · obtain rfl := Declared.eq_of_name_eq hnames hg hf heq
    obtain ⟨rfl, hy⟩ := hfield x hx
    exact ⟨y₀, hy, by simpa using h⟩
  · have hne : (f.name != g.name || kept) = true := by simp [Ne.symm heq]
    exact ⟨x, (hother _ heq).trans hx, hne.symm ▸ .same x⟩

/-- The declared fields of an object are found again, each as it was or with a change of its own. -/
theorem Change.fields?_object {fields : List (Declared Shape)} (hnames : (Declared.names fields).Nodup) {p : Place}
    {ok : Bool} {fs : List (Quoted × Json)} {v : Json} (h : Change (.record fields) p ok (.object fs) v)
    {xs : List (Option Json)} (hxs : (Json.object fs).fields? (Declared.names fields) = some xs) :
    ∃ ys, v.fields? (Declared.names fields) = some ys ∧ FieldChanges p.inner fields (p.held || ok) xs ys := by
  obtain ⟨es, hes, hfound⟩ := Option.bind_eq_some_iff.mp hxs
  have hread : ∀ {fs' : List (Quoted × Json)} {es' : List (String × Json)} {ys : List (Option Json)},
      (Json.object fs').named? = some es' → (Declared.names fields).mapM (Json.only? es') = some ys →
        (Json.object fs').fields? (Declared.names fields) = some ys :=
    fun hes' hys => Option.bind_eq_some_iff.mpr ⟨_, hes', hys⟩
  cases h with
  | permute hperm =>
    obtain ⟨es', hes', hperm'⟩ := List.perm_comp_forall₂ hperm.symm (Json.named?_object_iff.mp hes)
    obtain ⟨ys, hys, hchanges⟩ := fieldChanges_of_same (fun f _ x => Json.only?_perm hperm'.symm) hfound
    exact ⟨ys, hread (Json.named?_object_iff.mpr hes') hys, by rwa [Bool.or_true]⟩
  | @add _ _ _ k name u hk hname =>
    have hkept : (p.held || p.inner.fits u) = true := by
      cases hheld : p.held <;> simp [Place.fits, Place.inner, hheld]
    have hes' : (Json.object ((k, u) :: fs)).named? = some ((name, u) :: es) :=
      Json.named?_object_iff.mpr (.cons ⟨hk, rfl⟩ (Json.named?_object_iff.mp hes))
    obtain ⟨ys, hys, hchanges⟩ := fieldChanges_of_same (fun f hf x hx => by
      have hne : name ≠ f.name := fun heq => hname (heq ▸ List.mem_map_of_mem hf)
      exact (@Json.only?_middle_of_ne [] es (name, u) f.name hne).trans hx) hfound
    exact ⟨ys, hread hes' hys, hkept ▸ hchanges⟩
  | leaveOut hg hk hv =>
    obtain ⟨name, es₁, es₂, hname, rfl, hes', -⟩ := Json.named?_middle hes
    obtain rfl := Option.some.inj (hk.symm.trans hname)
    obtain ⟨ys, hys, hchanges⟩ := fieldChanges_of_field hnames hg (.leftOut hv)
      (fun x => Json.only?_middle_iff.mp) (fun _ hne => (Json.only?_middle_of_ne hne).symm) hfound
    exact ⟨ys, hread hes' hys, by rwa [Bool.or_true]⟩
  | @field _ _ _ _ _ _ u u' g hg hk hchange =>
    obtain ⟨name, es₁, es₂, hname, rfl, -, hes'⟩ := Json.named?_middle hes
    obtain rfl := Option.some.inj (hk.symm.trans hname)
    have hfield : ∀ x, Json.only? (es₁ ++ (g.name, u) :: es₂) g.name = some x →
        x = some u ∧ Json.only? (es₁ ++ (g.name, u') :: es₂) g.name = some (some u') := by
      intro x hx
      obtain ⟨hv, hnone⟩ := Json.only?_middle_iff.mp hx
      exact ⟨hv, Json.only?_middle_iff.mpr ⟨rfl, hnone⟩⟩
    have hother : ∀ name, g.name ≠ name →
        Json.only? (es₁ ++ (g.name, u') :: es₂) name = Json.only? (es₁ ++ (g.name, u) :: es₂) name :=
      fun name hne => (Json.only?_middle_of_ne hne).trans (Json.only?_middle_of_ne hne).symm
    obtain ⟨ys, hys, hchanges⟩ := fieldChanges_of_field hnames hg (.changed hchange) hfield hother hfound
    exact ⟨ys, hread (hes' u') hys, hchanges⟩

/-- So are those of an array, which gives the first of them. -/
theorem Change.fields?_array {fields : List (Declared Shape)} {p : Place} {ok : Bool} {items : List Json} {v : Json}
    (h : Change (.record fields) p ok (.array items) v) {xs : List (Option Json)}
    (hxs : (Json.array items).fields? (Declared.names fields) = some xs) :
    ∃ ys, v.fields? (Declared.names fields) = some ys ∧ FieldChanges p.inner fields (p.held || ok) xs ys := by
  obtain ⟨hlength, rfl⟩ := Json.fields?_array_eq_some_iff.mp hxs
  cases h with
  | @item _ _ _ before after w w' f hf hchange =>
    have hlength' : (before ++ w' :: after).length ≤ (Declared.names fields).length := by simpa using hlength
    refine ⟨_, Json.fields?_array_eq_some_iff.mpr ⟨hlength', rfl⟩, ?_⟩
    simp only [List.map_append, List.map_cons, List.append_assoc, List.cons_append, List.length_append,
      List.length_cons] at hlength ⊢
    refine .middle (.changed hchange) ?_ (by simpa using hf)
    simp only [Declared.names, List.length_map, List.length_append, List.length_cons,
      List.length_replicate] at hlength ⊢
    omega
  | @leaveOff _ _ before w f hf hw =>
    simp only [List.length_append, List.length_cons, List.length_nil, Nat.zero_add] at hlength
    -- the place of the item goes to the fields that are not given
    have hgiven : List.replicate ((Declared.names fields).length - before.length) (none : Option Json) =
        none :: List.replicate ((Declared.names fields).length - (before.length + 1)) none := by
      rw [← List.replicate_succ]
      congr 1
      omega
    refine ⟨_, Json.fields?_array_eq_some_iff.mpr ⟨Nat.le_of_succ_le hlength, rfl⟩, ?_⟩
    simp only [hgiven, Bool.or_true, List.map_append, List.map_cons, List.map_nil, List.append_assoc,
      List.cons_append, List.nil_append, List.length_append, List.length_cons, List.length_nil, Nat.zero_add]
    refine .middle (.leftOut hw) ?_ (by simpa using hf)
    simp only [Declared.names, List.length_map, List.length_append, List.length_cons,
      List.length_replicate] at hlength ⊢
    omega

theorem Change.fields? {fields : List (Declared Shape)} (hnames : (Declared.names fields).Nodup) {p : Place}
    {ok : Bool} {v v' : Json} (h : Change (.record fields) p ok v v') {xs : List (Option Json)}
    (hxs : v.fields? (Declared.names fields) = some xs) :
    ∃ ys, v'.fields? (Declared.names fields) = some ys ∧ FieldChanges p.inner fields (p.held || ok) xs ys := by
  cases v with
  | object fs => exact h.fields?_object hnames hxs
  | array items => exact h.fields?_array hxs
  | _ => cases h

/-- What is read from the declared fields of a record follows them. -/
theorem Change.follows_record {α : Type} {fields : List (Declared Shape)} (hnames : (Declared.names fields).Nodup)
    {p : Place} {ok : Bool} {v v' : Json} (h : Change (.record fields) p ok v v')
    {read : List (Option Json) → Option α}
    (hread : ∀ kept xs ys, FieldChanges p.inner fields kept xs ys → Follows kept (read xs) (read ys)) :
    Follows (p.held || ok) (v.fields? (Declared.names fields) >>= read)
      (v'.fields? (Declared.names fields) >>= read) := by
  intro a ha
  obtain ⟨xs, hxs, hread'⟩ := Option.bind_eq_some_iff.mp ha
  obtain ⟨ys, hys, hchanges⟩ := h.fields? hnames hxs
  rw [hys]
  exact hread _ xs ys hchanges a hread'

theorem Change.follows_single {α : Type} {f : Declared Shape} {p : Place} {ok : Bool} {v v' : Json}
    (h : Change (.record [f]) p ok v v') {read : List (Option Json) → Option α}
    (hread : ∀ kept x y, FieldChange p.inner f kept x y → Follows kept (read [x]) (read [y])) :
    Follows (p.held || ok) (v.fields? [f.name] >>= read) (v'.fields? [f.name] >>= read) := by
  have hnames : (Declared.names [f]).Nodup := List.nodup_singleton f.name
  refine h.follows_record hnames ?_
  rintro _ _ _ (_ | ⟨hfield, _ | _⟩)
  rw [Bool.and_true]
  exact hread _ _ _ hfield

theorem FieldChange.follows_required {α : Type} {p : Place} {name : String} {shape : Shape} {kept : Bool}
    {x y : Option Json} (h : FieldChange p (.needed name shape) kept x y) {read : Json → Option α}
    (hread : ∀ ok v v', Change shape p ok v v' → Follows (p.held || ok) (read v) (read v')) :
    Follows kept (required read x) (required read y) := by
  cases h with
  | same => exact .refl _
  | changed hchange => exact hread _ _ _ hchange
  | leftOut hfalse => cases hfalse

theorem FieldChange.follows_optional {α : Type} {p : Place} {f : Declared Shape} {kept : Bool} {x y : Option Json}
    (h : FieldChange p f kept x y) {default : α} {read : Json → Option α}
    (hdefault : ∀ v, f.isDefault v → read v = some default)
    (hread : ∀ ok v v', Change f.shape p ok v v' → Follows (p.held || ok) (read v) (read v')) :
    Follows kept (optional default read x) (optional default read y) := by
  cases h with
  | same => exact .refl _
  | changed hchange => exact hread _ _ _ hchange
  | leftOut hv =>
    intro a ha
    exact (hdefault _ hv).symm.trans ha

/-- In a value that is no record there is nothing to change. -/
theorem Change.not_value {p : Place} {ok : Bool} {v v' : Json} : ¬ Change .value p ok v v' := nofun

namespace Mode

theorem tagged?_object_eq_some_iff {m : Mode} {names : List String} {fields : List (Quoted × Json)} {tag : String}
    {rest : Json} :
    m.tagged? names (.object fields) = some (tag, rest) ↔
      m.allows (.object fields) = true ∧ (∃ k t, fields.filter isTag = [(k, t)] ∧ m.tag? names t = some tag) ∧
        rest = .object (fields.filter (!isTag ·)) := by
  constructor
  · intro h
    obtain ⟨_, hallows, h⟩ := Option.bind_eq_some_iff.mp h
    dsimp only at h
    split at h
    · next f hone =>
      obtain ⟨t, ht, h⟩ := Option.bind_eq_some_iff.mp h
      cases h
      exact ⟨(Option.guard_eq_some' _).mp hallows, ⟨f.1, f.2, hone, ht⟩, rfl⟩
    · cases h
  · rintro ⟨hallows, ⟨k, t, hone, ht⟩, rfl⟩
    rw [tagged?_object names hallows hone, ht]
    rfl

theorem tagged?_array_eq_some_iff {m : Mode} {names : List String} {t : Json} {items : List Json} {tag : String}
    {rest : Json} :
    m.tagged? names (.array (t :: items)) = some (tag, rest) ↔
      m.allows (.array (t :: items)) = true ∧ m.tag? names t = some tag ∧ rest = .array items := by
  simp only [tagged?, Option.bind_eq_bind, Option.bind_eq_some_iff, Option.guard_eq_some']
  constructor
  · rintro ⟨-, hallows, t', ht', h⟩
    cases h
    exact ⟨hallows, ht', rfl⟩
  · rintro ⟨hallows, ht, rfl⟩
    exact ⟨(), hallows, tag, ht, rfl⟩

/-- An object with the same tag is read with that tag. -/
theorem tagged?_object_of_tag {m : Mode} {names : List String} {fields fields' : List (Quoted × Json)}
    {tag : String} {rest : Json} (h : m.tagged? names (.object fields) = some (tag, rest))
    (hallows : m.allows (.object fields) = true → m.allows (.object fields') = true)
    (hone : ∀ f, fields.filter isTag = [f] → fields'.filter isTag = [f]) :
    rest = .object (fields.filter (!isTag ·)) ∧
      m.tagged? names (.object fields') = some (tag, .object (fields'.filter (!isTag ·))) := by
  obtain ⟨hv, ⟨k, t, htag, ht⟩, hrest⟩ := tagged?_object_eq_some_iff.mp h
  exact ⟨hrest, tagged?_object_eq_some_iff.mpr ⟨hallows hv, ⟨k, t, hone _ htag, ht⟩, rfl⟩⟩

theorem allows_of_tagged? {m : Mode} {names : List String} {v : Json} {r : String × Json}
    (h : m.tagged? names v = some r) : m.allows v = true := by
  obtain ⟨_, hallows, -⟩ := Option.bind_eq_some_iff.mp h
  exact (Option.guard_eq_some' _).mp hallows

theorem isTag_iff {f : Quoted × Json} {name : String} (h : f.1.text? = some name) :
    isTag f = true ↔ name = "type" := by
  rw [isTag, h, decide_eq_true_eq, Option.some.injEq]

theorem tag?_of_hasTag {m : Mode} {names : List String} {v rest : Json} {tag tag' : String}
    (h : v.HasTag m names tag) (htagged : m.tagged? names v = some (tag', rest)) : tag' = tag := by
  cases v with
  | object fields =>
    obtain ⟨-, ⟨k, t, hone, ht⟩, -⟩ := tagged?_object_eq_some_iff.mp htagged
    obtain ⟨f, hf, hname, hf'⟩ := h
    have hmem : f ∈ fields.filter isTag := List.mem_filter.mpr ⟨hf, (isTag_iff hname).mpr rfl⟩
    rw [hone] at hmem
    obtain rfl := List.mem_singleton.mp hmem
    exact Option.some.inj (ht.symm.trans hf')
  | array items =>
    cases items with
    | nil => cases h
    | cons t items =>
      obtain ⟨-, ht, -⟩ := tagged?_array_eq_some_iff.mp htagged
      exact Option.some.inj (ht.symm.trans h)
  | _ => cases h

end Mode

/-- A change of a tagged value leaves its tag as it is, and is one of the fields that belong to the tag. -/
theorem Change.tagged? {fields : List (Declared Shape)} (htype : "type" ∉ Declared.names fields) {p : Place}
    {ok : Bool} {v v' : Json} (h : Change (.record (Declared.tag :: fields)) p ok v v') {m : Mode}
    (hallows : m.allows v = true → m.allows v' = true) {names : List String} {tag : String} {rest : Json}
    (htagged : m.tagged? names v = some (tag, rest)) :
    ∃ rest', m.tagged? names v' = some (tag, rest') ∧ Change (.record fields) p ok rest rest' := by
  have hother : ∀ {name : String} {k : Quoted} (w : Json), name ≠ "type" → k.text? = some name →
      Mode.isTag (k, w) = false := by
    intro name k w hname hk
    rw [Bool.eq_false_iff]
    exact fun htag => hname ((Mode.isTag_iff hk).mp htag)
  have hfield : ∀ f ∈ fields, f.name ≠ "type" := fun f hf heq => htype (heq ▸ List.mem_map_of_mem hf)
  cases h with
  | permute hperm =>
    obtain ⟨rfl, htagged'⟩ := Mode.tagged?_object_of_tag htagged hallows fun f hone =>
      (List.singleton_perm.mp (hone ▸ hperm.filter Mode.isTag)).symm
    exact ⟨_, htagged', .permute (hperm.filter _)⟩
  | @add _ _ fs k name w hk hname =>
    rw [Declared.names, List.map_cons, List.mem_cons, not_or] at hname
    have hk' := hother w hname.1 hk
    have hfilter : ((k, w) :: fs).filter (!Mode.isTag ·) = (k, w) :: fs.filter (!Mode.isTag ·) :=
      List.filter_cons_of_pos (by simp [hk'])
    obtain ⟨rfl, htagged'⟩ := Mode.tagged?_object_of_tag htagged hallows fun f hone => by
      rwa [List.filter_cons_of_neg (by simp [hk'])]
    exact ⟨_, htagged', hfilter ▸ .add hk hname.2⟩
  | @leaveOut _ _ before after k w f hf hk hv =>
    obtain rfl | hf := List.mem_cons.mp hf
    · cases hv
    have hk' := hother w (hfield f hf) hk
    obtain ⟨rfl, htagged'⟩ := Mode.tagged?_object_of_tag htagged hallows fun g hone => by
      rwa [List.filter_append, List.filter_cons_of_neg (by simp [hk']), ← List.filter_append] at hone
    refine ⟨_, htagged', ?_⟩
    rw [List.filter_append, List.filter_cons_of_pos (by simp [hk']), List.filter_append]
    exact .leaveOut hf hk hv
  | @field _ _ _ before after k w w' f hf hk hchange =>
    obtain rfl | hf := List.mem_cons.mp hf
    · exact absurd hchange Change.not_value
    have hk' := fun u => hother u (hfield f hf) hk
    obtain ⟨rfl, htagged'⟩ := Mode.tagged?_object_of_tag htagged hallows fun g hone => by
      rw [List.filter_append, List.filter_cons_of_neg (by simp [hk'])] at hone ⊢
      exact hone
    refine ⟨_, htagged', ?_⟩
    rw [List.filter_append, List.filter_cons_of_pos (by simp [hk']), List.filter_append,
      List.filter_cons_of_pos (by simp [hk'])]
    exact .field hf hk hchange
  | @item _ _ _ before after w w' f hf hchange =>
    cases before with
    | nil =>
      obtain rfl : Declared.tag = f := by simpa using hf
      exact absurd hchange Change.not_value
    | cons t before =>
      obtain ⟨hv, ht, rfl⟩ := Mode.tagged?_array_eq_some_iff.mp htagged
      exact ⟨_, Mode.tagged?_array_eq_some_iff.mpr ⟨hallows hv, ht, rfl⟩, .item (by simpa using hf) hchange⟩
  | @leaveOff _ _ before w f hf hw =>
    cases before with
    | nil =>
      obtain rfl : Declared.tag = f := by simpa using hf
      cases hw
    | cons t before =>
      obtain ⟨hv, ht, rfl⟩ := Mode.tagged?_array_eq_some_iff.mp htagged
      exact ⟨_, Mode.tagged?_array_eq_some_iff.mpr ⟨hallows hv, ht, rfl⟩, .leaveOff (by simpa using hf) hw⟩

theorem Mode.tagged?_eq_none {m : Mode} {v : Json} (h : m.allows v = false) (names : List String) :
    m.tagged? names v = none := by
  rw [tagged?.eq_def, h]
  rfl

/-- A tagged value is held back: what belongs to its tag is kept, but all is lost when what is added is not
readable. -/
theorem Change.follows_tagged {α : Type} {variants : List (String × List (Declared Shape))}
    (htype : ∀ variant ∈ variants, "type" ∉ Declared.names variant.2) {p : Place} {ok : Bool} {v v' : Json}
    (h : Change (.tagged variants) p ok v v') {read : String × Json → Option α}
    (hread : ∀ tag fields, (tag, fields) ∈ variants → ∀ ok rest rest',
      Change (.record fields) p.hold ok rest rest' → Follows true (read (tag, rest)) (read (tag, rest'))) :
    Follows (p.held || ok) (p.mode.tagged? (variants.map Prod.fst) v >>= read)
      (p.mode.tagged? (variants.map Prod.fst) v' >>= read) := by
  cases h with
  | @tagged _ fields _ _ tag _ _ hvariant htag hrecord =>
    have hallows : p.mode.allows v = true → p.mode.allows v' = (p.held || ok) := by
      intro hv
      cases hheld : p.held with
      | true => simp [Place.mode, hheld]
      | false =>
        rw [Place.mode, hheld] at hv ⊢
        exact hrecord.readable rfl hv
    intro a ha
    obtain ⟨⟨tag', rest⟩, htagged, hread'⟩ := Option.bind_eq_some_iff.mp ha
    have hv : p.mode.allows v = true := Mode.allows_of_tagged? htagged
    cases hkept : p.held || ok with
    | true =>
      obtain rfl := Mode.tag?_of_hasTag htag htagged
      obtain ⟨rest', htagged', hchange⟩ :=
        hrecord.tagged? (htype _ hvariant) (fun hv => (hallows hv).trans hkept) htagged
      rw [htagged']
      exact hread _ _ hvariant _ _ _ hchange a hread'
    | false =>
      rw [Mode.tagged?_eq_none ((hallows hv).trans hkept)]
      rfl

/-- A tag without fields of its own is read from any record. -/
theorem Change.follows_bare {α : Type} (a : α) {p : Place} {ok : Bool} {v v' : Json}
    (h : Change (.record []) p ok v v') : Follows true (bare a v) (bare a v') := by
  cases h with
  | item hf => cases hf
  | leaveOff hf => cases hf
  | _ => exact .refl _

theorem Change.follows_table {α : Type} {entry : Shape} {p : Place} {ok : Bool} {v v' : Json}
    (h : Change (.table entry) p ok v v') {read : Json → Option α}
    (hread : ∀ ok w w', Change entry p.inner ok w w' → Follows (p.held || ok) (read w) (read w')) :
    Follows (p.held || ok) (Json.table? read v) (Json.table? read v') := by
  cases h with
  | @entry _ _ _ before after k w w' hchange =>
    intro t ht
    obtain ⟨es, hes, hentries⟩ := Option.bind_eq_some_iff.mp ht
    obtain ⟨name, es₁, es₂, -, rfl, -, hes'⟩ := Json.named?_middle hes
    rw [Json.table?, hes' w', ← Bool.and_true (p.held || ok)]
    refine Follows.bind (Follows.mapM_middle ?_ es₁ es₂) (fun _ => .refl _) t hentries
    rw [← Bool.and_true (p.held || ok)]
    exact (hread ok w w' hchange).bind fun _ => .refl _

theorem Change.follows_list {α : Type} {item : Shape} {p : Place} {ok : Bool} {v v' : Json}
    (h : Change (.list item) p ok v v') {read : Json → Option α}
    (hread : ∀ ok w w', Change item p.inner ok w w' → Follows (p.held || ok) (read w) (read w')) :
    Follows (p.held || ok) (v.items? >>= List.mapM read) (v'.items? >>= List.mapM read) := by
  cases h with
  | element hchange => exact Follows.mapM_middle (hread _ _ _ hchange) _ _

end FlowBasic
