/-! # Searching stage by stage

A staged search starts in one state and passes through a list of stages. Each stage
turns a state into any number of states, or fails; the states left after the last
stage are the outcome, in depth-first order.

`Search.run` keeps the states still to be looked at on a list, so the depth of the
search costs no nested calls. `Search.explore` is the same search by plain recursion
on the stages.
-/

namespace TimedKripke

namespace Search

variable {σ β ε : Type}

/-- A state with the stages it has still to pass. -/
abbrev Pending (σ β : Type) := List σ × β

/-- The first list arises from the second by replacing its first state by states with
fewer stages to pass. -/
def Replaces (later earlier : List (Pending σ β)) : Prop :=
  ∃ node rest children, earlier = node :: rest ∧ later = children ++ rest ∧
    ∀ child ∈ children, child.1.length < node.1.length

/-- Putting a state on a list from which the search ends gives a list from which it
ends. -/
theorem acc_cons (stages : Nat) : ∀ (node : Pending σ β), node.1.length < stages →
    ∀ rest, Acc Replaces rest → Acc Replaces (node :: rest) := by
  induction stages with
  | zero => intro node impossible; exact absurd impossible (Nat.not_lt_zero _)
  | succ stages fewer =>
      intro node within rest ends
      refine Acc.intro _ ?_
      rintro _ ⟨_, _, children, same, rfl, shorter⟩
      cases same
      induction children with
      | nil => exact ends
      | cons child children others =>
          have childShorter := shorter child (List.mem_cons_self ..)
          exact fewer child (by omega) _
            (others fun other member => shorter other (List.mem_cons_of_mem _ member))

/-- Every search ends. -/
theorem wellFounded_replaces : WellFounded (@Replaces σ β) := by
  refine ⟨fun pending => ?_⟩
  induction pending with
  | nil =>
      refine Acc.intro _ ?_
      rintro _ ⟨_, _, _, impossible, _, _⟩
      cases impossible
  | cons node rest ends => exact acc_cons _ node (Nat.lt_succ_self _) rest ends

instance : WellFoundedRelation (List (Pending σ β)) :=
  ⟨Replaces, wellFounded_replaces⟩

/-- Looks at the pending states in order; the outcome gathers in `found`, last state
first. -/
def loop (expand : σ → β → Except ε (List β)) (pending : List (Pending σ β)) (found : List β) :
    Except ε (List β) :=
  match pending with
  | [] => .ok found.reverse
  | ([], state) :: rest => loop expand rest (state :: found)
  | (stage :: stages, state) :: rest =>
      match expand stage state with
      | .error fault => .error fault
      | .ok children =>
          loop expand (children.map (fun child => (stages, child)) ++ rest) found
termination_by pending
decreasing_by
  · exact ⟨([], state), rest, [], rfl, rfl, fun _ member => nomatch member⟩
  · refine ⟨(stage :: stages, state), rest, _, rfl, rfl, ?_⟩
    intro child member
    obtain ⟨_, _, rfl⟩ := List.mem_map.mp member
    exact Nat.lt_succ_self _

/-- The states that `start` leads to through all stages. -/
def run (expand : σ → β → Except ε (List β)) (stages : List σ) (start : β) :
    Except ε (List β) :=
  loop expand [(stages, start)] []

/-- The states that a state leads to, by recursion on the stages. -/
def explore (expand : σ → β → Except ε (List β)) : List σ → β → Except ε (List β)
  | [], state => .ok [state]
  | stage :: stages, state =>
      match expand stage state with
      | .error fault => .error fault
      | .ok children => (children.mapM (explore expand stages)).map List.flatten

end Search

end TimedKripke
