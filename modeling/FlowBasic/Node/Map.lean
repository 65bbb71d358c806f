import FlowBasic.Node

namespace FlowBasic

structure NodeMap where
  entries : List (NodeId × Node)
  sorted : entries.Pairwise (fun a b => a.1 < b.1)
deriving DecidableEq

namespace NodeMap

def empty : NodeMap := ⟨[], .nil⟩

def ids (m : NodeMap) : List NodeId := m.entries.map Prod.fst

def get? (m : NodeMap) (id : NodeId) : Option Node := m.entries.lookup id

def contains (m : NodeMap) (id : NodeId) : Bool := (m.get? id).isSome

/-- Puts a node at its place in the order, over one of the same id. -/
def put (id : NodeId) (n : Node) : List (NodeId × Node) → List (NodeId × Node)
  | [] => [(id, n)]
  | e :: es =>
    if id < e.1 then (id, n) :: e :: es
    else if id = e.1 then (id, n) :: es
    else e :: put id n es

theorem mem_put {id : NodeId} {n : Node} {es : List (NodeId × Node)} {e : NodeId × Node}
    (h : e ∈ put id n es) : e = (id, n) ∨ e ∈ es := by
  induction es with
  | nil => exact .inl (List.mem_singleton.mp h)
  | cons a es ih =>
    simp only [put] at h
    split at h
    · exact List.mem_cons.mp h
    · split at h
      · rcases List.mem_cons.mp h with h | h
        · exact .inl h
        · exact .inr (List.mem_cons_of_mem _ h)
      · rcases List.mem_cons.mp h with h | h
        · exact .inr (h ▸ List.mem_cons_self)
        · exact (ih h).imp_right (List.mem_cons_of_mem _)

theorem sorted_put {id : NodeId} {n : Node} {es : List (NodeId × Node)}
    (h : es.Pairwise (fun a b => a.1 < b.1)) : (put id n es).Pairwise (fun a b => a.1 < b.1) := by
  induction es with
  | nil => exact List.pairwise_singleton _ _
  | cons a es ih =>
    have hs := List.pairwise_cons.mp h
    simp only [put]
    split
    · next lt =>
      refine List.pairwise_cons.mpr ⟨fun b hb => ?_, h⟩
      rcases List.mem_cons.mp hb with rfl | hb
      · exact lt
      · exact UInt32.lt_trans lt (hs.1 b hb)
    · next nlt =>
      split
      · next eq => exact List.pairwise_cons.mpr ⟨fun b hb => eq ▸ hs.1 b hb, hs.2⟩
      · next ne =>
        refine List.pairwise_cons.mpr ⟨fun b hb => ?_, ih hs.2⟩
        rcases mem_put hb with rfl | hb
        · exact UInt32.lt_of_le_of_ne (UInt32.not_lt.mp nlt) (fun e => ne e.symm)
        · exact hs.1 b hb

def insert (m : NodeMap) (id : NodeId) (n : Node) : NodeMap :=
  ⟨put id n m.entries, sorted_put m.sorted⟩

def erase (m : NodeMap) (id : NodeId) : NodeMap :=
  ⟨m.entries.filter (fun e => e.1 ≠ id), m.sorted.filter _⟩

/-- Changes every node without moving it. -/
def map (f : Node → Node) (m : NodeMap) : NodeMap :=
  ⟨m.entries.map (fun e => (e.1, f e.2)), m.sorted.map _ (fun _ _ h => h)⟩

def ofList (es : List (NodeId × Node)) : NodeMap :=
  es.foldl (fun m e => m.insert e.1 e.2) empty

/-- The largest id in use. -/
def maxId? (m : NodeMap) : Option NodeId := m.ids.getLast?

theorem ext {m m' : NodeMap} (h : m.entries = m'.entries) : m = m' := by
  cases m
  cases m'
  cases h
  rfl

theorem put_of_forall_lt {id : NodeId} {es : List (NodeId × Node)} (h : ∀ e ∈ es, e.1 < id) (n : Node) :
    put id n es = es ++ [(id, n)] := by
  induction es with
  | nil => rfl
  | cons e es ih =>
    have hlt := h e List.mem_cons_self
    rw [put, if_neg (UInt32.not_lt.mpr (UInt32.le_of_lt hlt)),
      if_neg (fun heq => UInt32.lt_irrefl _ (heq ▸ hlt)), ih fun e he => h e (List.mem_cons_of_mem _ he)]
    rfl

theorem lookup_put (id : NodeId) (n : Node) (es : List (NodeId × Node)) (x : NodeId)
    (h : es.Pairwise (fun a b => a.1 < b.1)) :
    (put id n es).lookup x = if x = id then some n else es.lookup x := by
  induction es with
  | nil => simp [put, Entries.lookup_cons]
  | cons e es ih =>
    have hs := List.pairwise_cons.mp h
    simp only [put]
    split
    · rw [Entries.lookup_cons]
    · split
      · next eq =>
        rw [Entries.lookup_cons, Entries.lookup_cons]
        by_cases hx : x = id <;> simp [hx, ← eq]
      · next ne =>
        rw [Entries.lookup_cons, ih hs.2, Entries.lookup_cons]
        by_cases hx : x = e.1
        · have hne : ¬ e.1 = id := fun he => ne he.symm
          simp [hx, hne]
        · simp [hx]

/-- An id that is there keeps its place. -/
theorem exists_put_eq {id : NodeId} {n : Node} {es : List (NodeId × Node)}
    (hsorted : es.Pairwise fun a b => a.1 < b.1) (h : es.lookup id = some n) :
    ∃ earlier later, es = earlier ++ (id, n) :: later ∧
      ∀ n', put id n' es = earlier ++ (id, n') :: later := by
  induction es with
  | nil => cases h
  | cons e es ih =>
    obtain ⟨hfirst, hrest⟩ := List.pairwise_cons.mp hsorted
    rw [Entries.lookup_cons] at h
    by_cases he : id = e.1
    · rw [if_pos he] at h
      refine ⟨[], es, ?_, fun n' => ?_⟩
      · rw [← Option.some.inj h, he]
        rfl
      · simp [put, he]
    · rw [if_neg he] at h
      obtain ⟨earlier, later, hes, hput⟩ := ih hrest h
      have hlt : e.1 < id := hfirst (id, n) (by rw [hes]; exact List.mem_append_right _ List.mem_cons_self)
      refine ⟨e :: earlier, later, by rw [hes]; rfl, fun n' => ?_⟩
      rw [put, if_neg (UInt32.not_lt.mpr (UInt32.le_of_lt hlt)), if_neg he, hput]
      rfl

theorem contains_iff (m : NodeMap) (id : NodeId) : m.contains id ↔ id ∈ m.ids :=
  Entries.isSome_lookup id m.entries

theorem get?_insert (m : NodeMap) (id : NodeId) (n : Node) (x : NodeId) :
    (m.insert id n).get? x = if x = id then some n else m.get? x :=
  lookup_put id n m.entries x m.sorted

theorem get?_erase (m : NodeMap) (id x : NodeId) :
    (m.erase id).get? x = if x = id then none else m.get? x :=
  Entries.lookup_filter_ne id x m.entries

theorem get?_map (f : Node → Node) (m : NodeMap) (id : NodeId) :
    (m.map f).get? id = (m.get? id).map f :=
  Entries.lookup_map f id m.entries

theorem ids_map (f : Node → Node) (m : NodeMap) : (m.map f).ids = m.ids := by
  simp [ids, map, Function.comp_def]

end NodeMap

end FlowBasic
