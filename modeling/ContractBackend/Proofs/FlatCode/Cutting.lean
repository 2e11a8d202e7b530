import ContractBackend.Proofs.Confinement
import ContractBackend.Proofs.FlatCode.Stretches

/-!
# Cutting succeeds

Flat code can be cut into stretches if every branch aims at a label of the code and something
stands behind every conditional branch. The layout of a graph is such code.
-/

namespace ContractBackend

namespace FlatCode

variable {code : FlatCode} {cuts : List OpenStretch} {labels : List Label} {instrs : List Instr}

/-- Wherever control can go on by a branch there is code. -/
structure Connected (code : FlatCode) : Prop where
  aimed : ∀ instr, .instr instr ∈ code → instr.op.isBranch = true →
    ∃ label, instr.label? = some label ∧ .label label ∈ code
  followed : ∀ (position : Nat) (instr : Instr), code[position]? = some (.instr instr) →
    instr.op = .bnz ∨ instr.op = .bz → position + 1 < code.length

/-- Every branch aims at some label. -/
def Aimed (code : FlatCode) : Prop :=
  ∀ instr, .instr instr ∈ code → instr.op.isBranch = true → ∃ label, instr.label? = some label

theorem Aimed.of_cons {item : Item} (aimed : Aimed (item :: code)) : Aimed code :=
  fun instr member => aimed instr (List.mem_cons_of_mem _ member)

theorem Aimed.not_none {instr : Instr} (aimed : Aimed (.instr instr :: code))
    (branches : instr.op.isBranch = true) : instr.label? ≠ none := by
  obtain ⟨label, isLabel⟩ := aimed instr (List.mem_cons_self ..) branches
  simp [isLabel]

theorem exists_cut_cons {stretch : OpenStretch} {rest : FlatCode}
    (behind : ∃ cuts, cut rest labels [] = .ok cuts) :
    ∃ cuts, (do pure (stretch :: (← cut rest labels []))) =
      (Except.ok cuts : Except CompileError (List OpenStretch)) := by
  obtain ⟨cuts, isCut⟩ := behind
  exact ⟨stretch :: cuts, by rw [isCut]; rfl⟩

theorem exists_cut (aimed : Aimed code) : ∃ cuts, cut code labels instrs = .ok cuts := by
  fun_induction cut code labels instrs with
  | case1 => exact ⟨_, rfl⟩
  | case2 => exact ⟨_, rfl⟩
  | case3 _ _ _ ih | case16 _ _ _ _ _ _ _ _ ih => exact ih aimed.of_cons
  | case4 _ _ _ _ _ ih | case5 _ _ _ _ _ _ _ ih | case8 _ _ _ _ _ _ _ _ _ ih
  | case9 _ _ _ _ _ _ _ _ ih | case12 _ _ _ _ _ _ _ _ _ ih | case13 _ _ _ _ _ _ _ _ ih
  | case15 _ _ _ _ _ _ _ _ ih => exact exists_cut_cons (ih aimed.of_cons)
  | case7 _ _ _ _ _ _ _ _ _ _ ih | case11 _ _ _ _ _ _ _ _ _ _ ih =>
    -- The jump behind a conditional branch belongs to its stretch.
    exact exists_cut_cons (ih aimed.of_cons.of_cons)
  | case6 _ _ _ _ isOp missing | case10 _ _ _ _ isOp missing | case14 _ _ _ _ isOp missing =>
    exact absurd missing (aimed.not_none (by rw [isOp]; rfl))

section Ends

variable {pieces : List (List Item)} {label : Label} {number : Nat} {stretch : OpenStretch}
  {items : List Item}

/-- The stretch of a label is found, and it is not in front of any stretch with the label. -/
theorem exists_labelled_of_mem (found : cuts[number]? = some stretch)
    (stands : label ∈ stretch.labels) : ∃ last, labelled cuts label = .ok last ∧ number ≤ last := by
  obtain ⟨last, isLast, behind⟩ : ∃ last, cuts.zipIdx.foldl (fun found entry =>
      if label ∈ entry.1.labels then some entry.2 else found) none = some last ∧ number ≤ last :=
    exists_foldl_last (fun stretch : OpenStretch => label ∈ stretch.labels)
      (.inr ⟨number, _, found, stands, Nat.le_add_left _ _⟩)
  exact ⟨last, by simp only [labelled, isLast], behind⟩

/-- A label that stands at one stretch only is found there. -/
theorem labelled_of_unique (found : cuts[number]? = some stretch) (stands : label ∈ stretch.labels)
    (unique : ∀ other stretch, cuts[other]? = some stretch → label ∈ stretch.labels →
      other = number) : labelled cuts label = .ok number := by
  obtain ⟨last, isLast, _⟩ := exists_labelled_of_mem found stands
  obtain ⟨⟨stretch, atLast, standsLast⟩, _⟩ := labelled_eq_ok isLast
  rw [isLast, unique last stretch atLast standsLast]

/-- A label of the code stands at some stretch. -/
theorem exists_labelled (spelled : List.Forall₂ OpenStretch.Spells cuts pieces)
    (member : .label label ∈ pieces.flatten) : ∃ number, labelled cuts label = .ok number := by
  obtain ⟨position, here⟩ := List.mem_iff_getElem?.mp member
  obtain ⟨number, offset, items, lies⟩ := exists_lies (List.getElem?_eq_some_iff.mp here).1
  rw [lies.getElem?] at here
  obtain ⟨_, found, spells⟩ := exists_spells spelled lies.found
  obtain ⟨last, isLast, _⟩ := exists_labelled_of_mem found (spells.of_label here).1
  exact ⟨last, isLast⟩

/-- Behind a stretch that ends with a conditional branch there is another one. -/
theorem exists_behind (spelled : List.Forall₂ OpenStretch.Spells cuts pieces)
    (connected : Connected pieces.flatten) (piece : pieces[number]? = some items) {instr : Instr}
    (isLast : items.getLast? = some (.instr instr)) (conditional : instr.op = .bnz ∨ instr.op = .bz)
    (op : Opcode) : ∃ next, behind cuts number op = .ok next := by
  have nonempty := forall_ne_nil spelled items (List.mem_of_getElem? piece)
  have positive := List.length_pos_iff.mpr nonempty
  have lies : Lies pieces (Concat.start id pieces number + (items.length - 1)) number
      (items.length - 1) items := ⟨piece, by omega, rfl⟩
  have here := lies.getElem?
  rw [← List.getLast?_eq_getElem?, isLast] at here
  have inside := connected.followed _ instr here conditional
  rcases lies.next (forall_ne_nil spelled) inside with same | ⟨_, more, next⟩
  · have beyond := same.inside
    omega
  · obtain ⟨_, further, _⟩ := exists_spells spelled next.found
    exact ⟨number + 1, if_pos (List.getElem?_eq_some_iff.mp further).1⟩

/-- Where control goes on behind a stretch of connected code is known. -/
theorem exists_successors (spelled : List.Forall₂ OpenStretch.Spells cuts pieces)
    (connected : Connected pieces.flatten) (found : cuts[number]? = some stretch) :
    ∃ targets, successors cuts number stretch.ending = .ok targets := by
  obtain ⟨items, piece, spells⟩ := Fallible.exists_related spelled found
  obtain ⟨branches, ends, isItems⟩ := spells.spelled
  have resolved : ∀ instr ∈ branches, instr.op.isBranch = true → ∀ label,
      instr.label? = some label → ∃ number, labelled cuts label = .ok number := by
    intro instr member isBranch label isLabel
    have inCode : .instr instr ∈ pieces.flatten := by
      refine List.mem_flatten.mpr ⟨_, List.mem_of_getElem? piece, ?_⟩
      simp [isItems, member]
    obtain ⟨other, isOther, stands⟩ := connected.aimed instr inCode isBranch
    rw [isLabel] at isOther
    cases isOther
    exact exists_labelled spelled stands
  have further : ∀ instr, branches.getLast? = some instr → instr.op = .bnz ∨ instr.op = .bz →
      ∀ op, ∃ next, behind cuts number op = .ok next := by
    intro instr isLast conditional op
    refine exists_behind spelled connected piece ?_ conditional op
    simp [isItems, List.getLast?_append, isLast]
  obtain ⟨labels, instrs, ending⟩ := stretch
  cases ends with
  | fall => exact ⟨_, rfl⟩
  | leave => exact ⟨_, rfl⟩
  | @jump instr target isJump isLabel =>
    obtain ⟨there, isOk⟩ := resolved instr (by simp) (by rw [isJump]; rfl) target isLabel
    exact ⟨[there], by simp [successors, isOk]⟩
  | @ifTrue instr target isBnz isLabel =>
    obtain ⟨there, isOk⟩ := resolved instr (by simp) (by rw [isBnz]; rfl) target isLabel
    obtain ⟨next, isNext⟩ := further instr rfl (.inl isBnz) .bnz
    exact ⟨[there, next], by simp [successors, isOk, isNext]⟩
  | @ifFalse instr target isBz isLabel =>
    obtain ⟨there, isOk⟩ := resolved instr (by simp) (by rw [isBz]; rfl) target isLabel
    obtain ⟨next, isNext⟩ := further instr rfl (.inr isBz) .bz
    exact ⟨[next, there], by simp [successors, isOk, isNext]⟩
  | @both instr next onTrue onFalse isBnz isTrue isJump isFalse =>
    obtain ⟨first, firstOk⟩ := resolved instr (by simp) (by rw [isBnz]; rfl) onTrue isTrue
    obtain ⟨second, secondOk⟩ := resolved next (by simp) (by rw [isJump]; rfl) onFalse isFalse
    exact ⟨[first, second], by simp [successors, firstOk, secondOk]⟩
  | @bothReversed instr next onTrue onFalse isBz isFalse isJump isTrue =>
    obtain ⟨first, firstOk⟩ := resolved next (by simp) (by rw [isJump]; rfl) onTrue isTrue
    obtain ⟨second, secondOk⟩ := resolved instr (by simp) (by rw [isBz]; rfl) onFalse isFalse
    exact ⟨[first, second], by simp [successors, firstOk, secondOk]⟩

end Ends

/-- Code that is connected can be cut. -/
theorem Connected.exists_stretches (connected : Connected code) :
    ∃ stretches, code.stretches = .ok stretches := by
  have aimed : Aimed code := by
    intro instr member isBranch
    obtain ⟨label, isLabel, _⟩ := connected.aimed instr member isBranch
    exact ⟨label, isLabel⟩
  obtain ⟨cuts, isCut⟩ : ∃ cuts, cut code [] [] = .ok cuts := exists_cut aimed
  obtain ⟨pieces, spelled, isCode⟩ := cut_into isCut (List.forall_mem_nil _)
  simp only [List.map_nil, List.nil_append] at isCode
  subst isCode
  rw [stretches, isCut, Fallible.ok_bind]
  refine Fallible.exists_mapM_eq_ok fun entry member => ?_
  obtain ⟨stretch, number⟩ := entry
  have found := List.mem_zipIdx_iff_getElem?.mp member
  obtain ⟨targets, isOk⟩ := exists_successors spelled connected found
  exact ⟨⟨stretch.labels, stretch.instrs, targets⟩, by simp only [isOk]; rfl⟩

end FlatCode

namespace Graph

variable {graph : Graph} {entry id : BlockId} {order : List BlockId} {placed : List Placed}
  {position index : Nat} {branches : List Branch}

theorem Leads.exists_target (leads : graph.Leads order position id branches) {branch : Branch}
    (member : branch ∈ branches) : ∃ target, order[branch.target]? = some target := by
  cases leads with
  | exit => cases member
  | fall => cases member
  | jump _ _ atTarget | ifTrue _ _ atTarget | ifFalse _ _ _ atTarget =>
    cases List.mem_singleton.mp member
    exact ⟨_, atTarget⟩
  | both _ _ atTrue atFalse =>
    rcases List.mem_cons.mp member with rfl | other
    · exact ⟨_, atTrue⟩
    · cases List.mem_singleton.mp other
      exact ⟨_, atFalse⟩

theorem Owns.lt_length (owns : graph.Owns placed id index) :
    index < (graph.listing placed).length := by
  obtain ⟨position, branches, found, _, upper⟩ := owns
  have bound := (List.getElem?_eq_some_iff.mp found).1
  have whole : graph.startOf placed (position + 1) ≤ graph.startOf placed placed.length :=
    startOf_mono bound
  rw [startOf_length] at whole
  omega

/-- An instruction of the layout that branches is one of the branches behind a block. -/
theorem Laid.exists_branch (laid : graph.Laid entry order placed) {instr : Instr}
    (here : (graph.listing placed)[index]? = some (.instr instr))
    (isBranch : instr.op.isBranch = true) :
    ∃ position id branches offset branch, placed[position]? = some (id, branches) ∧
      branches[offset]? = some branch ∧ instr = branch.instr ∧
      index = graph.bodyOf placed position + (graph.block id).instrs.length + offset := by
  obtain ⟨position, id, branches, found, ⟨referenced, rfl⟩ | ⟨offset, bound, rfl⟩⟩ :=
    listing_cases (List.getElem?_eq_some_iff.mp here).1
  · rw [listing_label found referenced] at here
    cases here
  · by_cases inBody : offset < (graph.block id).instrs.length
    · have atOffset : ((graph.block id).instrs ++ branches.map Branch.instr)[offset]? =
          some (graph.block id).instrs[offset] := by
        rw [List.getElem?_append_left inBody, List.getElem?_eq_getElem inBody]
      rw [listing_instr found atOffset] at here
      cases here
      rw [laid.branchless id (laid.reached found) _ (List.getElem_mem inBody)] at isBranch
      cases isBranch
    · obtain ⟨more, rfl⟩ := Nat.exists_eq_add_of_le (Nat.le_of_not_lt inBody)
      have atMore := List.getElem?_eq_getElem (show more < branches.length by omega)
      have stands : (graph.listing placed)[graph.bodyOf placed position +
          (graph.block id).instrs.length + more]? = _ := listing_branch found atMore
      rw [← Nat.add_assoc, stands] at here
      cases here
      exact ⟨position, id, branches, more, _, found, atMore, rfl, (Nat.add_assoc ..).symm⟩

/-- The layout of a graph is connected. -/
theorem Laid.connected (laid : graph.Laid entry order placed) :
    (graph.listing placed).Connected where
  aimed instr member isBranch := by
    obtain ⟨index, here⟩ := List.mem_iff_getElem?.mp member
    obtain ⟨position, id, branches, offset, branch, found, atOffset, rfl, _⟩ :=
      laid.exists_branch here isBranch
    have isMember := List.mem_of_getElem? atOffset
    obtain ⟨target, atTarget⟩ := (laid.leads found).exists_target isMember
    obtain ⟨_, _, _, atLabel⟩ := branch_target laid found isMember atTarget
    exact ⟨⟨branch.target, ""⟩, rfl,
      List.mem_of_getElem? (FlatCode.getElem?_of_labelPosition? atLabel)⟩
  followed index instr here conditional := by
    obtain ⟨position, id, branches, offset, branch, found, atOffset, rfl, rfl⟩ :=
      laid.exists_branch here (FlatCode.isBranch_of_conditional conditional)
    have behind := startOf_succ graph found
    have followed : ∀ {next : BlockId}, order[position + 1]? = some next →
        graph.startOf placed (position + 1) < (graph.listing placed).length := by
      intro next atNext
      obtain ⟨others, isPlaced⟩ := laid.placed_of_order atNext
      obtain ⟨target, owns, _⟩ := owned_from_start laid isPlaced (Nat.le_add_left ..)
      exact owns.lt_length
    cases laid.leads found with
    | exit => simp at atOffset
    | fall => simp at atOffset
    | jump =>
      match offset, atOffset with
      | 0, rfl => rcases conditional with jumps | jumps <;> cases jumps
    | ifTrue _ _ _ atNext =>
      match offset, atOffset with
      | 0, rfl => exact behind ▸ followed atNext
    | ifFalse _ _ atNext =>
      match offset, atOffset with
      | 0, rfl => exact behind ▸ followed atNext
    | both =>
      match offset, atOffset with
      | 0, rfl => exact (List.getElem?_eq_some_iff.mp (listing_branch found rfl)).1
      | 1, rfl => rcases conditional with jumps | jumps <;> cases jumps

end Graph

end ContractBackend
