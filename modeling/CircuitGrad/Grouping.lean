/-! # Greedy grouping

    Partition a list into groups of pairwise compatible items.  Items are
    placed in order, each into the first group whose members are all
    compatible with it, or else into a group of its own.
-/

namespace CircuitGrad.Grouping

variable {β : Type}

/-- Place one item with its index. -/
def place (compatible : β → β → Bool) (item : Nat × β) :
    List (List (Nat × β)) → List (List (Nat × β))
  | [] => [[item]]
  | group :: rest =>
    if group.all fun member => compatible item.2 member.2 then (group ++ [item]) :: rest
    else group :: place compatible item rest

/-- The groups of a list, as lists of indices. -/
def groups (compatible : β → β → Bool) (items : List β) : List (List Nat) :=
  let placed := items.zipIdx.foldl (fun acc (x, i) => place compatible (i, x) acc) []
  placed.map fun group => group.map (·.1)

end CircuitGrad.Grouping
