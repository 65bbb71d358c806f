namespace FlowBasic

namespace Entries

variable {α β : Type}

/-- Puts a value under a name: in place when the name is there, at the end when it is new. -/
def put (k : String) (v : α) : List (String × α) → List (String × α)
  | [] => [(k, v)]
  | e :: es => if e.1 = k then (k, v) :: es else e :: put k v es

/-- Gives the first entry of a name another name. -/
def rename (old new : String) : List (String × α) → List (String × α)
  | [] => []
  | e :: es => if e.1 = old then (new, e.2) :: es else e :: rename old new es

theorem keys_put (k : String) (v : α) (es : List (String × α)) :
    (put k v es).map Prod.fst =
      if k ∈ es.map Prod.fst then es.map Prod.fst else es.map Prod.fst ++ [k] := by
  induction es with
  | nil => rfl
  | cons e es ih =>
    by_cases h : e.1 = k
    · simp [put, h]
    · have h' : ¬ k = e.1 := fun x => h x.symm
      simp only [put, h, if_false, List.map_cons, ih, List.mem_cons, h', false_or]
      split <;> simp

theorem nodup_put {k : String} {v : α} {es : List (String × α)}
    (h : (es.map Prod.fst).Nodup) : ((put k v es).map Prod.fst).Nodup := by
  rw [keys_put]
  split
  · exact h
  · next new =>
    rw [List.nodup_append]
    refine ⟨h, by simp, ?_⟩
    intro a ha b hb
    rw [List.mem_singleton.mp hb]
    exact fun e => new (e ▸ ha)

theorem lookup_cons {κ : Type} [BEq κ] [LawfulBEq κ] [DecidableEq κ] (x : κ) (e : κ × α)
    (es : List (κ × α)) : (e :: es).lookup x = if x = e.1 then some e.2 else es.lookup x := by
  by_cases h : x = e.1
  · rw [if_pos h, h]
    exact List.lookup_cons_self
  · have hb : (x == e.1) = false := by simpa using h
    rw [if_neg h]
    exact List.lookup_cons.trans (by rw [hb])

theorem isSome_lookup {κ : Type} [BEq κ] [LawfulBEq κ] [DecidableEq κ] (x : κ)
    (es : List (κ × α)) : (es.lookup x).isSome ↔ x ∈ es.map Prod.fst := by
  induction es with
  | nil => simp
  | cons e es ih =>
    rw [lookup_cons, List.map_cons, List.mem_cons, ← ih]
    by_cases h : x = e.1 <;> simp [h]

theorem lookup_filter_ne {κ : Type} [BEq κ] [LawfulBEq κ] [DecidableEq κ] (k x : κ)
    (es : List (κ × α)) :
    (es.filter (fun e => e.1 ≠ k)).lookup x = if x = k then none else es.lookup x := by
  induction es with
  | nil => simp
  | cons e es ih =>
    by_cases he : e.1 = k
    · rw [List.filter_cons_of_neg (by simp [he]), ih, lookup_cons]
      by_cases hx : x = k <;> simp [hx, he]
    · rw [List.filter_cons_of_pos (by simp [he]), lookup_cons, ih, lookup_cons]
      by_cases hx : x = e.1
      · simp [hx, he]
      · simp [hx]

theorem lookup_map {κ : Type} [BEq κ] [LawfulBEq κ] [DecidableEq κ] (f : α → β) (x : κ)
    (es : List (κ × α)) : (es.map (fun e => (e.1, f e.2))).lookup x = (es.lookup x).map f := by
  induction es with
  | nil => rfl
  | cons e es ih =>
    rw [List.map_cons, lookup_cons, lookup_cons, ih]
    by_cases h : x = e.1 <;> simp [h]

theorem lookup_put (k : String) (v : α) (es : List (String × α)) (x : String) :
    (put k v es).lookup x = if x = k then some v else es.lookup x := by
  induction es with
  | nil => simp [put, lookup_cons]
  | cons e es ih =>
    by_cases h : e.1 = k
    · simp only [put, h, if_true, lookup_cons]
      split <;> rfl
    · simp only [put, h, if_false, lookup_cons, ih]
      by_cases hx : x = e.1
      · simp [hx, h]
      · simp [hx]

/-- A name that is there keeps its place. -/
theorem exists_put_eq {es : List (String × α)} {k : String} {v : α} (h : es.lookup k = some v) :
    ∃ earlier later, es = earlier ++ (k, v) :: later ∧
      ∀ w, put k w es = earlier ++ (k, w) :: later := by
  induction es with
  | nil => cases h
  | cons e es ih =>
    rw [lookup_cons] at h
    by_cases hk : k = e.1
    · rw [if_pos hk] at h
      refine ⟨[], es, ?_, fun w => ?_⟩
      · rw [← Option.some.inj h, hk]
        rfl
      · rw [put, if_pos hk.symm]
        rfl
    · rw [if_neg hk] at h
      obtain ⟨earlier, later, hes, hput⟩ := ih h
      refine ⟨e :: earlier, later, by rw [hes]; rfl, fun w => ?_⟩
      rw [put, if_neg fun heq => hk heq.symm, hput]
      rfl

theorem keys_rename {old new : String} {es : List (String × α)} (h : (es.map Prod.fst).Nodup) :
    (rename old new es).map Prod.fst =
      (es.map Prod.fst).map (fun k => if k = old then new else k) := by
  induction es with
  | nil => rfl
  | cons e es ih =>
    simp only [List.map_cons, List.nodup_cons] at h
    by_cases he : e.1 = old
    · have hes : ∀ k ∈ es.map Prod.fst, ¬ k = old := fun k hk x => h.1 (he ▸ x ▸ hk)
      have hid : (es.map Prod.fst).map (fun k => if k = old then new else k) = es.map Prod.fst := by
        conv => rhs; rw [← List.map_id (es.map Prod.fst)]
        exact List.map_congr_left fun k hk => if_neg (hes k hk)
      simp [rename, he]
      simpa using hid.symm
    · have := ih h.2
      simp only [rename, he, if_false, List.map_cons, this]

theorem nodup_rename {old new : String} {es : List (String × α)}
    (h : (es.map Prod.fst).Nodup) (fresh : new ∉ es.map Prod.fst) :
    ((rename old new es).map Prod.fst).Nodup := by
  induction es with
  | nil => simp [rename]
  | cons e es ih =>
    simp only [List.map_cons, List.nodup_cons, List.mem_cons, not_or] at h fresh
    by_cases he : e.1 = old
    · simp only [rename, he, if_true, List.map_cons, List.nodup_cons]
      exact ⟨fresh.2, h.2⟩
    · simp only [rename, he, if_false, List.map_cons, List.nodup_cons]
      refine ⟨?_, ih h.2 fresh.2⟩
      rw [keys_rename h.2, List.mem_map]
      rintro ⟨k, hk, hke⟩
      by_cases hko : k = old
      · rw [if_pos hko] at hke
        exact fresh.1 hke
      · rw [if_neg hko] at hke
        exact h.1 (hke ▸ hk)

end Entries

structure Table (α : Type) where
  entries : List (String × α)
  nodup : (entries.map Prod.fst).Nodup
deriving DecidableEq

namespace Table

variable {α β : Type}

def empty : Table α := ⟨[], List.nodup_nil⟩

def keys (t : Table α) : List String := t.entries.map Prod.fst

def values (t : Table α) : List α := t.entries.map Prod.snd

def size (t : Table α) : Nat := t.entries.length

def get? (t : Table α) (k : String) : Option α := t.entries.lookup k

def contains (t : Table α) (k : String) : Bool := (t.get? k).isSome

/-- A name that is there keeps its place and takes the new value; a new name goes last. -/
def insert (t : Table α) (k : String) (v : α) : Table α :=
  ⟨Entries.put k v t.entries, Entries.nodup_put t.nodup⟩

def ofList (es : List (String × α)) : Table α :=
  es.foldl (fun t e => t.insert e.1 e.2) empty

/-- The other names keep their order. -/
def erase (t : Table α) (k : String) : Table α :=
  ⟨t.entries.filter (fun e => e.1 ≠ k), (List.filter_sublist.map _).nodup t.nodup⟩

/-- Renames an entry in place; nothing changes when the new name is taken. -/
def rename (t : Table α) (old new : String) : Table α :=
  if fresh : new ∉ t.keys then
    ⟨Entries.rename old new t.entries, Entries.nodup_rename t.nodup fresh⟩
  else t

def map (f : α → β) (t : Table α) : Table β :=
  ⟨t.entries.map (fun e => (e.1, f e.2)), by
    have h : (t.entries.map (fun e => (e.1, f e.2))).map Prod.fst = t.entries.map Prod.fst := by
      simp [Function.comp_def]
    rw [h]; exact t.nodup⟩

theorem ext {s t : Table α} (h : s.entries = t.entries) : s = t := by
  cases s; cases t; cases h; rfl

theorem contains_iff (t : Table α) (k : String) : t.contains k ↔ k ∈ t.keys :=
  Entries.isSome_lookup k t.entries

theorem get?_eq_none_iff {t : Table α} {k : String} : t.get? k = none ↔ k ∉ t.keys := by
  simp [← contains_iff, contains]

theorem keys_insert (t : Table α) (k : String) (v : α) :
    (t.insert k v).keys = if k ∈ t.keys then t.keys else t.keys ++ [k] :=
  Entries.keys_put k v t.entries

theorem get?_insert (t : Table α) (k : String) (v : α) (x : String) :
    (t.insert k v).get? x = if x = k then some v else t.get? x :=
  Entries.lookup_put k v t.entries x

theorem keys_erase (t : Table α) (k : String) :
    (t.erase k).keys = t.keys.filter (· ≠ k) := by
  simp only [keys, erase, List.filter_map]
  rfl

theorem get?_erase (t : Table α) (k x : String) :
    (t.erase k).get? x = if x = k then none else t.get? x :=
  Entries.lookup_filter_ne k x t.entries

theorem keys_rename (t : Table α) {old new : String} (fresh : new ∉ t.keys) :
    (t.rename old new).keys = t.keys.map (fun k => if k = old then new else k) := by
  rw [rename, dif_pos fresh]
  exact Entries.keys_rename t.nodup

theorem get?_map (f : α → β) (t : Table α) (k : String) : (t.map f).get? k = (t.get? k).map f :=
  Entries.lookup_map f k t.entries

end Table

end FlowBasic
