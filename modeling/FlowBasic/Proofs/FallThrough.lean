import FlowBasic.Proofs.Emission
import FlowBasic.Proofs.Validity

namespace FlowBasic

/-- The output port by which control leaves without a jump. -/
def Payload.fallThrough? : Payload → Option Nat
  | .start => some 0
  | .assign .. => some 1
  | .call c => if c.asProcess then some 1 else none
  | .process _ => some 1
  | .branch .ifThen => some 3
  | _ => none

/-- The link leads where control is to go that runs off the end of its source. -/
def Routine.FallsThrough (r : Routine) (l : Link) : Prop :=
  l ∈ r.links ∧ l.isFlow = true ∧
    ∃ n, r.nodes.get? l.source.node = some n ∧ n.payload.fallThrough? = some l.source.port.toNat

/-- The statements of `w` keep control from going on from the end of `u` to the start of `v`: they
stand between the two, or else `v` comes no later than `u` and they stand in either or between. -/
def Intervenes (order : List NodeId) (u v w : NodeId) : Prop :=
  (Precedes order u w ∧ Precedes order w v) ∨ (¬ Precedes order w v ∧ ¬ Precedes order u w)

instance (order : List NodeId) (u v w : NodeId) : Decidable (Intervenes order u v w) :=
  inferInstanceAs (Decidable (_ ∨ _))

/-- The number of statements in the blocks before a place. -/
def offset (blocks : List (NodeId × List Statement)) (place : Nat) : Nat :=
  ((blocks.take place).flatMap Prod.snd).length

theorem offset_eq_iff_of_le {blocks : List (NodeId × List Statement)} {i j : Nat} (h : i ≤ j) :
    offset blocks i = offset blocks j ↔
      ∀ k b, blocks[k]? = some b → i ≤ k → k < j → b.2 = [] := by
  have hsplit : blocks.take j = blocks.take i ++ (blocks.take j).drop i := by
    have htake : (blocks.take j).take i = blocks.take i := by rw [List.take_take, Nat.min_eq_left h]
    rw [← htake, List.take_append_drop]
  have hlength : offset blocks j =
      offset blocks i + (((blocks.take j).drop i).flatMap Prod.snd).length := by
    have hboth := congrArg (fun bs => (bs.flatMap Prod.snd).length) hsplit
    simpa only [offset, List.flatMap_append, List.length_append] using hboth
  have hmem : ∀ b, b ∈ (blocks.take j).drop i ↔ ∃ k, blocks[k]? = some b ∧ i ≤ k ∧ k < j := by
    intro b
    rw [List.mem_iff_getElem?]
    constructor
    · rintro ⟨k, hk⟩
      rw [List.getElem?_drop, List.getElem?_take] at hk
      split at hk
      · exact ⟨i + k, hk, by omega, by assumption⟩
      · exact absurd hk (by simp)
    · rintro ⟨k, hk, hik, hkj⟩
      refine ⟨k - i, ?_⟩
      rw [List.getElem?_drop, List.getElem?_take, Nat.add_sub_cancel' hik, if_pos hkj]
      exact hk
  constructor
  · intro heq k b hk hik hkj
    have hnil : ((blocks.take j).drop i).flatMap Prod.snd = [] :=
      List.eq_nil_of_length_eq_zero (by omega)
    exact List.flatMap_eq_nil_iff.mp hnil b ((hmem b).mpr ⟨k, hk, hik, hkj⟩)
  · intro hempty
    have hnil : ((blocks.take j).drop i).flatMap Prod.snd = [] := by
      apply List.flatMap_eq_nil_iff.mpr
      intro b hb
      obtain ⟨k, hk, hik, hkj⟩ := (hmem b).mp hb
      exact hempty k b hk hik hkj
    rw [hlength, hnil]
    simp

/-- Two places have equally many statements before them when the blocks between them are empty. -/
theorem offset_eq_iff (blocks : List (NodeId × List Statement)) (i j : Nat) :
    offset blocks i = offset blocks j ↔
      ∀ k b, blocks[k]? = some b → (i ≤ k ∧ k < j) ∨ (j ≤ k ∧ k < i) → b.2 = [] := by
  rcases Nat.le_total i j with hle | hle
  · rw [offset_eq_iff_of_le hle]
    constructor
    · intro h k b hk hbetween
      exact h k b hk (by omega) (by omega)
    · intro h k b hk hik hkj
      exact h k b hk (.inl ⟨hik, hkj⟩)
  · rw [eq_comm, offset_eq_iff_of_le hle]
    constructor
    · intro h k b hk hbetween
      exact h k b hk (by omega) (by omega)
    · intro h k b hk hjk hki
      exact h k b hk (.inr ⟨hjk, hki⟩)

namespace Routine

/-- The block of a node stands at the node's place in the order. -/
theorem block_at (r : Routine) (scope : Scope) {id : NodeId} (h : r.nodes.contains id = true) :
    ∃ sts, (r.blocks scope)[r.traversal.order.idxOf id]? = some (id, sts) ∧
      ∀ firstLine name,
        (r.draft scope firstLine name).listing.statementsOf id = sts ∧
        (r.draft scope firstLine name).listing.startLine? id =
          some (firstLine + r.declarationLines.length +
            offset (r.blocks scope) (r.traversal.order.idxOf id)) := by
  obtain ⟨earlier, sts, later, hsplit, hlisting⟩ := r.exists_block scope h
  have hplace : r.traversal.order.idxOf id = earlier.length := by
    have hkeys := r.keys_blocks scope
    have hnodup := r.nodup_order
    rw [hsplit, List.map_append, List.map_cons] at hkeys
    rw [← hkeys] at hnodup ⊢
    rw [idxOf_append_cons hnodup, List.length_map]
  refine ⟨sts, ?_, ?_⟩
  · rw [hplace, hsplit]
    simp
  · intro firstLine name
    obtain ⟨hstatements, hstart⟩ := hlisting firstLine name
    refine ⟨hstatements, ?_⟩
    rw [hstart, hplace, offset, hsplit]
    simp

theorem offset_after {r : Routine} {scope : Scope} {id : NodeId} {sts : List Statement}
    (h : (r.blocks scope)[r.traversal.order.idxOf id]? = some (id, sts)) :
    offset (r.blocks scope) (r.traversal.order.idxOf id + 1) =
      offset (r.blocks scope) (r.traversal.order.idxOf id) + sts.length := by
  simp [offset, List.take_add_one, h]

/-- Control falls through along the link exactly when no statement intervenes. -/
theorem startLine_of_fallThrough_iff {r : Routine} {scope : Scope} {name : String}
    (hvalid : (r.report scope name).valid = true) {l : Link} (hl : r.FallsThrough l)
    (firstLine : Nat) :
    let listing := (r.draft scope firstLine name).listing
    ∃ line next, listing.startLine? l.source.node = some line ∧
      listing.startLine? l.sink.node = some next ∧
      (next = line + (listing.statementsOf l.source.node).length ↔
        ∀ w, r.nodes.contains w = true →
          Intervenes r.traversal.order l.source.node l.sink.node w → listing.statementsOf w = []) := by
  obtain ⟨hsource, hsink⟩ := (wellFormed_of_valid hvalid).ends l hl.1
  rw [← NodeMap.contains_iff] at hsource hsink
  obtain ⟨sts, hblock, hfirst⟩ := r.block_at scope hsource
  obtain ⟨sts', hblock', hfirst'⟩ := r.block_at scope hsink
  refine ⟨_, _, (hfirst firstLine name).2, (hfirst' firstLine name).2, ?_⟩
  rw [(hfirst firstLine name).1]
  have hafter := offset_after hblock
  have hoffset := offset_eq_iff (r.blocks scope) (r.traversal.order.idxOf l.source.node + 1)
    (r.traversal.order.idxOf l.sink.node)
  have hnumbers : (firstLine + r.declarationLines.length +
        offset (r.blocks scope) (r.traversal.order.idxOf l.sink.node) =
      firstLine + r.declarationLines.length +
        offset (r.blocks scope) (r.traversal.order.idxOf l.source.node) + sts.length) ↔
      offset (r.blocks scope) (r.traversal.order.idxOf l.source.node + 1) =
        offset (r.blocks scope) (r.traversal.order.idxOf l.sink.node) := by
    omega
  rw [hnumbers, hoffset]
  constructor
  · intro hempty w hw hbetween
    obtain ⟨sts'', hblock'', hfirst''⟩ := r.block_at scope hw
    rw [(hfirst'' firstLine name).1]
    refine hempty _ _ hblock'' ?_
    simp only [Intervenes, Precedes] at hbetween
    omega
  · rintro hempty k ⟨w, sts''⟩ hk hbetween
    have hplace : r.traversal.order[k]? = some w := by
      rw [← keys_blocks r scope, List.getElem?_map, hk]
      rfl
    have hidx : r.traversal.order.idxOf w = k := by
      obtain ⟨hlt, rfl⟩ := List.getElem?_eq_some_iff.mp hplace
      exact r.nodup_order.idxOf_getElem k hlt
    have hw : r.nodes.contains w = true := (r.mem_order w).mp (List.mem_of_getElem? hplace)
    obtain ⟨sts₁, hblock₁, hfirst₁⟩ := r.block_at scope hw
    have hsame : sts₁ = sts'' := by
      rw [hidx, hk] at hblock₁
      exact (Prod.mk.inj (Option.some.inj hblock₁)).2.symm
    rw [← hsame, ← (hfirst₁ firstLine name).1]
    refine hempty w hw ?_
    simp only [Intervenes, Precedes, hidx]
    omega

/-- A branch that takes in an assignment or passes it by. The assignment jumps on to the end of the
routine, which the branch reaches by falling through. -/
def branchOverAssignment : Routine :=
  { isProcess := false
    args := .empty
    vars := .ofList [("x", .uint64)]
    returns := .uint64
    nodes := .ofList
      [(0, .start),
       (1, .ofPayload "End" (.returnLiteral (.number 0))),
       (2, .ofPayload "Control" (.branch .ifThen)),
       (3, .ofPayload "Condition" (.condition (.uint64 .greater ⟨some 1, some 0⟩))),
       (4, .ofPayload "Let" (.assign "x" (.uint64 (some 1)))),
       (5, .ofPayload "Goto" .jump)]
    links :=
      [⟨⟨0, 0⟩, ⟨2, 0⟩, .flow⟩, ⟨⟨3, 1⟩, ⟨2, 1⟩, .value .uint64⟩, ⟨⟨2, 2⟩, ⟨4, 0⟩, .flow⟩,
       ⟨⟨2, 3⟩, ⟨1, 0⟩, .flow⟩, ⟨⟨4, 1⟩, ⟨5, 0⟩, .flow⟩, ⟨⟨5, 1⟩, ⟨1, 0⟩, .flow⟩] }

/-- Control that is to pass the assignment by runs into it. -/
theorem fallThrough_into_assignment :
    let r := branchOverAssignment
    let listing := (r.draft none 1 "Guard").listing
    (r.report none "Guard").valid = true ∧ OnPath r.links 0 2 ∧
      r.FallsThrough ⟨⟨2, 3⟩, ⟨1, 0⟩, .flow⟩ ∧
      listing.startLine? 2 = some 2 ∧ (listing.statementsOf 2).length = 1 ∧
      listing.startLine? 1 = some 5 ∧ listing.startLine? 4 = some 3 ∧
      listing.lines[2]? = some ⟨some 4, [.text "LET x = 1"]⟩ := by
  have honPath : OnPath branchOverAssignment.links 0 2 :=
    OnPath.flow (l := ⟨⟨0, 0⟩, ⟨2, 0⟩, .flow⟩) (by decide) rfl .start
  refine ⟨by decide, honPath, ⟨by decide, rfl, _, rfl, rfl⟩, ?_⟩
  decide +kernel

/-- The assignment falls through to its jump as drawn. -/
theorem startLine_of_fallThrough_assignment :
    let r := branchOverAssignment
    let listing := (r.draft none 1 "Guard").listing
    (r.report none "Guard").valid = true ∧ r.FallsThrough ⟨⟨4, 1⟩, ⟨5, 0⟩, .flow⟩ ∧
      ∃ line next, listing.startLine? 4 = some line ∧ listing.startLine? 5 = some next ∧
        (next = line + (listing.statementsOf 4).length ↔
          ∀ w, r.nodes.contains w = true → Intervenes r.traversal.order 4 5 w →
            listing.statementsOf w = []) := by
  have hvalid : (branchOverAssignment.report none "Guard").valid = true := by decide
  have hlink : branchOverAssignment.FallsThrough ⟨⟨4, 1⟩, ⟨5, 0⟩, .flow⟩ :=
    ⟨by decide, rfl, _, rfl, rfl⟩
  exact ⟨hvalid, hlink, startLine_of_fallThrough_iff hvalid hlink 1⟩

end Routine

end FlowBasic
