import ContractBackend.FlatCode.Stretch

/-!
# Reads before the first store

A load of a slot is in order if every path to it from the start of the routine stores to the slot
first. For each stretch the slots that are set where it starts are found by going round all
stretches: a slot is set there only if every predecessor leaves it set.
-/

namespace ContractBackend.SlotInit

/-- Whether a stretch stores to a slot. -/
def stores (stretch : Stretch) (slot : Slot) : Bool :=
  stretch.instrs.any fun instr => instr.storesTo slot

/-- For each stretch, the slots that count as set where it starts. -/
abbrev EntrySets := List (List Slot)

/-- The slots that count as set where a stretch starts. -/
def EntrySets.slotsAt (sets : EntrySets) (position : Nat) : List Slot := sets[position]?.getD []

/-- The stretches behind which control can go on at a given one. -/
def sources (stretches : List Stretch) (position : Nat) : List (Stretch × Nat) :=
  stretches.zipIdx.filter fun source => position ∈ source.1.successors

/-- Whether a slot counts as set behind a stretch. -/
def leavesSet (sets : EntrySets) (slot : Slot) (source : Stretch × Nat) : Bool :=
  slot ∈ sets.slotsAt source.2 || stores source.1 slot

/-- The checked slots that count as set behind every predecessor of a stretch. -/
def meet (stretches : List Stretch) (checked : List Slot) (sets : EntrySets) (position : Nat) :
    List Slot :=
  let before := sources stretches position
  checked.filter fun slot => before.all (leavesSet sets slot)

/-- Bring the set of one stretch up to date with its predecessors. -/
def update (stretches : List Stretch) (checked : List Slot) (sets : EntrySets) (position : Nat) :
    EntrySets :=
  sets.set position (meet stretches checked sets position)

/-- Bring the sets of all stretches but the first up to date, one after the other. -/
def round (stretches : List Stretch) (checked : List Slot) (sets : EntrySets) : EntrySets :=
  (List.range' 1 (stretches.length - 1)).foldl (update stretches checked) sets

/-- Go round until nothing changes, at most as often as given. -/
def settle (stretches : List Stretch) (checked : List Slot) : Nat → EntrySets → EntrySets
  | 0, sets => sets
  | count + 1, sets =>
      let next := round stretches checked sets
      if next = sets then sets else settle stretches checked count next

/-- The slots that are set where each stretch starts. At first none counts as set at the start of
the routine and all do everywhere else. Every round that changes something takes a slot away. -/
def entrySets (stretches : List Stretch) (checked : List Slot) : EntrySets :=
  settle stretches checked (stretches.length * checked.length)
    ((List.replicate stretches.length checked).set 0 [])

/-- The first checked slot that a straight piece of code loads while it is not set. A store sets
its slot for the code that follows. -/
def firstUnset? (checked : List Slot) : List Slot → List Instr → Option Slot
  | _, [] => none
  | set, instr :: rest =>
      match instr.directSlot? with
      | some slot =>
          if instr.op = .store then firstUnset? checked (slot :: set) rest
          else if instr.op = .load && slot ∈ checked && slot ∉ set then some slot
          else firstUnset? checked set rest
      | none => firstUnset? checked set rest

/-- The first load, in the order of the code, that some path reaches without a store before. -/
def earlyLoad? (stretches : List Stretch) (checked : List Slot) : Option Slot :=
  (stretches.zip (entrySets stretches checked)).findSome? fun entry =>
    firstUnset? checked entry.2 entry.1.instrs

/-- Refuse code that can load one of the given slots before any store to it. -/
def check (routine : String) (code : FlatCode) (checked : List Slot) :
    Except CompileError Unit :=
  if checked.isEmpty then
    .ok ()
  else do
    match earlyLoad? (← code.stretches) checked with
    | some slot => throw (.uninitializedRead slot routine)
    | none => pure ()

end ContractBackend.SlotInit
