import N3ur0n.Planner.Tools

/-!
# The tools that are kept

The catalogue is bounded by the scores of its tools, the local ones first. What is
kept of each group is told by its places in the catalogue.

* `filterWithScores_keepsBest`: no tool is dropped for one of less score, or for
  one that it is tied with and comes before;
* `Single`: the order of the scores, which has a place for every bit pattern.
-/

namespace N3ur0n

/-! ## Scores -/

/-- A number of single precision, by its bits. -/
structure Single where
  bits : BitVec 32
  deriving DecidableEq

namespace Single

/-- The bits after the sign are flipped if the number is negative. -/
def flip (x : BitVec 32) : BitVec 32 := if x.msb then x ^^^ 0x7fffffff#32 else x

/-- What `total_cmp` compares: negative numbers by their bits after the sign, the
    other way around. -/
def totalKey (x : Single) : ℤ := (flip x.bits).toInt

theorem flip_flip (x : BitVec 32) : flip (flip x) = x := by
  by_cases h : x.msb
  · have hmsb : (x ^^^ 0x7fffffff#32).msb = true := by
      rw [BitVec.msb_xor, h]
      decide
    rw [flip, flip, if_pos h, if_pos hmsb, BitVec.xor_assoc, BitVec.xor_self, BitVec.xor_zero]
  · rw [flip, flip, if_neg h, if_neg h]

theorem totalKey_injective : Function.Injective totalKey := by
  intro x y h
  have hflip := congrArg flip (BitVec.eq_of_toInt_eq h)
  rw [flip_flip, flip_flip] at hflip
  rcases x
  rcases y
  exact congrArg mk hflip

instance : LinearOrder Single := LinearOrder.lift' totalKey totalKey_injective

end Single

/-- Minus infinity is less than minus zero, that than zero, and infinity than a NaN. -/
example : (⟨0xff800000⟩ : Single) < ⟨0x80000000⟩ ∧ (⟨0x80000000⟩ : Single) < ⟨0⟩ ∧
    (⟨0⟩ : Single) < ⟨0x7f800000⟩ ∧ (⟨0x7f800000⟩ : Single) < ⟨0x7fc00000⟩ := by decide

/-! ## Places -/

section Placed

variable {β : Type} {tools : List DeclaredTool} {scores : List β} {p : DeclaredTool → Bool}

/-- The tools of a group, with their scores and their places. -/
def inGroup (tools : List DeclaredTool) (scores : List β) (p : DeclaredTool → Bool) :
    List ((DeclaredTool × β) × ℕ) :=
  (tools.zip scores).zipIdx.filter fun x => p x.1.1

theorem map_fst_inGroup :
    (inGroup tools scores p).map Prod.fst = (tools.zip scores).filter fun x => p x.1 := by
  rw [inGroup, ← List.zipIdx_map_fst 0 (tools.zip scores), List.filter_map]
  simp only [List.zipIdx_map_fst]
  rfl

theorem mem_inGroup {x : (DeclaredTool × β) × ℕ} : x ∈ inGroup tools scores p ↔
    tools[x.2]? = some x.1.1 ∧ scores[x.2]? = some x.1.2 ∧ p x.1.1 := by
  rw [inGroup, List.mem_filter, List.mem_zipIdx_iff_getElem?, List.getElem?_zip_eq_some, and_assoc]

theorem map_tool_inGroup (hlen : scores.length = tools.length) :
    (inGroup tools scores p).map (fun x => x.1.1) = tools.filter p := by
  have hzip : (tools.zip scores).map Prod.fst = tools := List.map_fst_zip hlen.ge
  have hfilter : ((tools.zip scores).filter fun x => p x.1).map Prod.fst = tools.filter p := by
    nth_rewrite 2 [← hzip]
    exact List.filter_map.symm
  rw [← hfilter, ← map_fst_inGroup, List.map_map]
  rfl

theorem length_inGroup (hlen : scores.length = tools.length) :
    (inGroup tools scores p).length = tools.countP p := by
  rw [List.countP_eq_length_filter, ← map_tool_inGroup hlen, List.length_map]

/-- They are in the order of the catalogue. -/
theorem pairwise_inGroup : (inGroup tools scores p).Pairwise fun x y => x.2 < y.2 := by
  refine List.Pairwise.filter _ ?_
  have hsnd : ((tools.zip scores).zipIdx.map Prod.snd).Pairwise (· < ·) := by
    rw [List.zipIdx_map_snd]
    exact List.pairwise_lt_range'
  exact List.pairwise_map.1 hsnd

theorem map_places {l : List ((DeclaredTool × β) × ℕ)} (hl : ∀ x ∈ l, x ∈ inGroup tools scores p) :
    (l.map fun x => x.1.1).map some = (l.map Prod.snd).map (tools[·]?) := by
  rw [List.map_map, List.map_map]
  exact List.map_congr_left fun x hx => (mem_inGroup.1 (hl x hx)).1.symm

end Placed

/-! ## What is kept -/

variable {β : Type} [LinearOrder β]

/-- What is kept of the tools of `p`, at these places of the catalogue: as many as the
    bound allows, no one else being better; all of them, in order, if they fit. -/
structure KeepsBest (tools : List DeclaredTool) (scores : List β) (p : DeclaredTool → Bool)
    (bound : ℕ) (places : List ℕ) : Prop where
  nodup : places.Nodup
  mem : ∀ i ∈ places, ∃ t ∈ tools[i]?, p t
  length_eq : places.length = min bound (tools.countP p)
  best : ∀ i ∈ places, ∀ j, (∃ t ∈ tools[j]?, p t) → j ∉ places →
    ∀ x ∈ scores[i]?, ∀ y ∈ scores[j]?, y < x ∨ y = x ∧ i < j
  inOrder : tools.countP p ≤ bound → places.Pairwise (· < ·)

variable {tools : List DeclaredTool} {scores : List β} {p : DeclaredTool → Bool} {bound : ℕ}

/-- The tools of a group, ranked if there are too many of them. -/
def arranged (tools : List DeclaredTool) (scores : List β) (p : DeclaredTool → Bool) (bound : ℕ) :
    List ((DeclaredTool × β) × ℕ) :=
  let items := inGroup tools scores p
  if bound < items.length then Ranking.sort (fun x => x.1.2) items else items

theorem topScored_eq : topScored bound ((tools.zip scores).filter fun x => p x.1) =
    ((arranged tools scores p bound).take bound).map fun x => x.1.1 := by
  rw [← map_fst_inGroup, topScored, arranged, List.length_map, Ranking.sort_map,
    ← apply_ite (List.map Prod.fst), ← List.map_take, List.map_map]
  rfl

theorem arranged_perm : (arranged tools scores p bound).Perm (inGroup tools scores p) := by
  rw [arranged]
  split_ifs
  · exact List.perm_insertionSort _ _
  · exact .refl _

theorem keepsBest_arranged (hlen : scores.length = tools.length) :
    KeepsBest tools scores p bound (((arranged tools scores p bound).take bound).map Prod.snd) := by
  have hmem : ∀ x ∈ (arranged tools scores p bound).take bound, x ∈ inGroup tools scores p :=
    fun x hx => arranged_perm.mem_iff.1 (List.mem_of_mem_take hx)
  have hplaces : ((inGroup tools scores p).map Prod.snd).Pairwise (· < ·) :=
    List.pairwise_map.2 pairwise_inGroup
  refine ⟨?_, ?_, ?_, ?_, ?_⟩
  · have hperm : (arranged tools scores p bound).Perm (inGroup tools scores p) := arranged_perm
    have hnodup := (hperm.map Prod.snd).nodup_iff.2 hplaces.nodup
    exact hnodup.sublist ((List.take_sublist _ _).map _)
  · intro i hi
    obtain ⟨x, hx, rfl⟩ := List.mem_map.1 hi
    obtain ⟨htool, -, hp⟩ := mem_inGroup.1 (hmem x hx)
    exact ⟨x.1.1, htool, hp⟩
  · rw [List.length_map, List.length_take, arranged_perm.length_eq, length_inGroup hlen]
  · intro i hi j hj hout s hs s' hs'
    obtain ⟨x, hx, rfl⟩ := List.mem_map.1 hi
    obtain ⟨t, ht, hp⟩ := hj
    have hy : ((t, s'), j) ∈ arranged tools scores p bound :=
      arranged_perm.mem_iff.2 (mem_inGroup.2 ⟨ht, hs', hp⟩)
    have hdrop : ((t, s'), j) ∈ (arranged tools scores p bound).drop bound := by
      rw [← List.take_append_drop bound (arranged tools scores p bound)] at hy
      exact (List.mem_append.1 hy).resolve_left fun h => hout (List.mem_map.2 ⟨_, h, rfl⟩)
    obtain rfl : x.1.2 = s := Option.some.inj ((mem_inGroup.1 (hmem x hx)).2.1.symm.trans hs)
    rw [arranged] at hx hdrop
    split_ifs at hx hdrop with hmany
    · have hgroup : (inGroup tools scores p).Pairwise fun x y => x.2 < y.2 := pairwise_inGroup
      have hpair := Ranking.pairwise_sort (f := fun x => x.1.2) hgroup
      rw [← List.take_append_drop bound (Ranking.sort _ _)] at hpair
      exact (List.pairwise_append.1 hpair).2.2 x hx _ hdrop
    · rw [List.drop_eq_nil_of_le (not_lt.1 hmany)] at hdrop
      exact absurd hdrop List.not_mem_nil
  · intro hfew
    rw [← length_inGroup hlen] at hfew
    rw [arranged, if_neg (not_lt.2 hfew), List.take_of_length_le hfew]
    exact hplaces

theorem topScored_subperm (hlen : scores.length = tools.length) :
    (topScored bound ((tools.zip scores).filter fun x => p x.1)).Subperm (tools.filter p) := by
  rw [topScored_eq, ← map_tool_inGroup hlen]
  exact ((List.take_sublist _ _).map _).subperm.trans (arranged_perm.map _).subperm

/-- What is kept are the best of the local tools, and then the best of the others. -/
theorem filterWithScores_keepsBest (tools : List DeclaredTool) (scores : List β)
    (hlen : scores.length = tools.length) {remoteTopK : ℕ} (hk : 0 < remoteTopK) :
    (filterWithScores tools scores remoteTopK).Subperm tools ∧
    ∃ locals remotes : List ℕ,
      KeepsBest tools scores (·.peerEndpoint.isNone) localTopK locals ∧
      KeepsBest tools scores (!·.peerEndpoint.isNone) remoteTopK remotes ∧
      (filterWithScores tools scores remoteTopK).map some =
        (locals ++ remotes).map (tools[·]?) := by
  have hnot : (fun x : DeclaredTool × β => decide ¬x.1.peerEndpoint.isNone = true) =
      fun x => !x.1.peerEndpoint.isNone := by
    funext x
    rw [decide_not, Bool.decide_coe]
  have hfilter : filterWithScores tools scores remoteTopK =
      topScored localTopK ((tools.zip scores).filter fun x => x.1.peerEndpoint.isNone) ++
        topScored remoteTopK ((tools.zip scores).filter fun x => !x.1.peerEndpoint.isNone) := by
    rw [filterWithScores, if_neg hk.ne', if_neg (not_not.2 hlen), hnot]
  rw [hfilter]
  refine ⟨?_, _, _, keepsBest_arranged hlen, keepsBest_arranged hlen, ?_⟩
  · exact ((topScored_subperm hlen).append (topScored_subperm hlen)).trans
      (List.filter_append_perm (fun t : DeclaredTool => t.peerEndpoint.isNone) tools).subperm
  · have hmem {q : DeclaredTool → Bool} {k : ℕ} :
        ∀ x ∈ (arranged tools scores q k).take k, x ∈ inGroup tools scores q :=
      fun x hx => arranged_perm.mem_iff.1 (List.mem_of_mem_take hx)
    rw [List.map_append, List.map_append, topScored_eq (p := fun t => t.peerEndpoint.isNone),
      topScored_eq (p := fun t => !t.peerEndpoint.isNone), map_places hmem, map_places hmem]

/-- Two tools of a peer and one of this instance. -/
def rankedTools : List DeclaredTool :=
  [⟨"n3:peer", some "http://peer", plainCap "a"⟩, ⟨"n3:peer", some "http://peer", plainCap "b"⟩,
    ⟨"n3:self", none, plainCap "c"⟩]

/-- Infinity, a NaN and zero. -/
def threeScores : List Single := [⟨0x7f800000⟩, ⟨0x7fc00000⟩, ⟨0⟩]

/-- One of the peer is kept: that with a NaN. -/
theorem filterWithScores_keepsBest_one :
    (filterWithScores rankedTools threeScores 1).map (·.cap.name) = ["c", "b"] ∧
    (filterWithScores rankedTools threeScores 1).Subperm rankedTools ∧
    ∃ locals remotes : List ℕ,
      KeepsBest rankedTools threeScores (·.peerEndpoint.isNone) localTopK locals ∧
      KeepsBest rankedTools threeScores (!·.peerEndpoint.isNone) 1 remotes ∧
      (filterWithScores rankedTools threeScores 1).map some =
        (locals ++ remotes).map (rankedTools[·]?) :=
  ⟨by decide, filterWithScores_keepsBest rankedTools threeScores rfl (by decide)⟩

end N3ur0n
