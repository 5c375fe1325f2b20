import TimedKripke.Proofs.Outcome
import TimedKripke.Variation.Search

/-! # Searching by recursion

The search that keeps pending states on a list finds what the search by recursion on the
stages finds (`Search.run_eq_explore`). What every stage preserves holds of all states
found (`Search.explore_preserves`), and stages that respect an equality of states find
equal states (`Search.explore_congr`).
-/

namespace TimedKripke

namespace Search

variable {σ β ε : Type} {expand : σ → β → Except ε (List β)}

/-- The loop on a stack of pending states finds, in order, what the recursion finds from each of
them, after what was found before. -/
theorem loop_eq_explore (expand : σ → β → Except ε (List β)) (pending : List (Pending σ β))
    (found : List β) : loop expand pending found =
      (pending.mapM fun node => explore expand node.1 node.2).map fun outcomes =>
        found.reverse ++ outcomes.flatten := by
  fun_induction loop expand pending found with
  | case1 found => simp [Except.map, pure, Except.pure]
  | case2 found state rest others =>
      rw [others, Outcome.mapM_cons]
      cases rest.mapM fun node => explore expand node.1 node.2 with
      | error fault => rfl
      | ok outcomes => simp [explore, bind, Except.bind, Except.map]
  | case3 found stage stages state rest fault failed =>
      rw [Outcome.mapM_cons]
      simp [explore, failed, bind, Except.bind, Except.map]
  | case4 found stage stages state rest children expanded others =>
      have inner : (fun node => explore expand node.1 node.2) ∘ (fun child => (stages, child)) =
          explore expand stages := rfl
      rw [others, Outcome.mapM_cons, List.mapM_append, List.mapM_map, inner]
      simp only [explore, expanded]
      cases children.mapM (explore expand stages) with
      | error fault => rfl
      | ok inside =>
          cases rest.mapM fun node => explore expand node.1 node.2 with
          | error fault => rfl
          | ok outcomes => simp [bind, Except.bind, Except.map, pure, Except.pure]

/-- **The search is the one by recursion**: it finds the same states in the same order, or stops at
the same fault. -/
theorem run_eq_explore (expand : σ → β → Except ε (List β)) (stages : List σ) (start : β) :
    run expand stages start = explore expand stages start := by
  rw [run, loop_eq_explore, Outcome.mapM_cons]
  cases explore expand stages start with
  | error fault => rfl
  | ok outcomes => simp [bind, Except.bind, Except.map, pure, Except.pure]

/-- A search that succeeds goes on from every child of its first state. -/
theorem explore_cons_eq_ok {stage : σ} {stages : List σ} {state : β} {outcomes : List β} :
    explore expand (stage :: stages) state = .ok outcomes ↔
      ∃ children inside, expand stage state = .ok children ∧
        children.mapM (explore expand stages) = .ok inside ∧ inside.flatten = outcomes := by
  rw [explore]
  cases expand stage state with
  | error fault =>
      constructor
      · rintro ⟨⟩
      · rintro ⟨_, _, ⟨⟩, _⟩
  | ok children =>
      constructor
      · intro explored
        obtain ⟨inside, mapped, same⟩ := Outcome.map_eq_ok.mp explored
        exact ⟨children, inside, rfl, mapped, same⟩
      · rintro ⟨_, inside, ⟨⟩, mapped, same⟩
        exact Outcome.map_eq_ok.mpr ⟨inside, mapped, same⟩

/-- What every stage preserves holds of all states found. -/
theorem explore_preserves {Holds : List σ → β → Prop}
    (each : ∀ {stage stages state children}, Holds (stage :: stages) state →
      expand stage state = .ok children → ∀ child ∈ children, Holds stages child) :
    ∀ {stages : List σ} {state : β} {outcomes : List β}, Holds stages state →
      explore expand stages state = .ok outcomes → ∀ outcome ∈ outcomes, Holds [] outcome := by
  intro stages
  induction stages with
  | nil =>
      intro state outcomes holds explored outcome member
      cases explored
      exact List.mem_singleton.mp member ▸ holds
  | cons stage stages shorter =>
      intro state outcomes holds explored outcome member
      obtain ⟨children, inside, expanded, mapped, rfl⟩ := explore_cons_eq_ok.mp explored
      obtain ⟨part, isPart, member⟩ := List.mem_flatten.mp member
      obtain ⟨child, isChild, found⟩ := Outcome.mem_of_mapM mapped isPart
      exact shorter (each holds expanded child isChild) found outcome member

/-- Searches through stages that are the same up to `view`, from states that are the same up
to `erase`, find states that are the same up to `erase`. -/
theorem explore_congr {τ γ : Type} {view : σ → τ} {erase : β → γ}
    (each : ∀ {stage stage' state state'}, view stage = view stage' → erase state = erase state' →
      (expand stage state).map (List.map erase) = (expand stage' state').map (List.map erase)) :
    ∀ {stages stages' : List σ} {state state' : β}, stages.map view = stages'.map view →
      erase state = erase state' →
        (explore expand stages state).map (List.map erase) =
          (explore expand stages' state').map (List.map erase)
  | [], [], state, state', _, same => congrArg (fun erased => Except.ok [erased]) same
  | [], _ :: _, _, _, impossible, _ => nomatch impossible
  | _ :: _, [], _, _, impossible, _ => nomatch impossible
  | stage :: stages, stage' :: stages', state, state', alike, same => by
      obtain ⟨head, tail⟩ := List.cons.inj alike
      have here := each head same
      have flat : ∀ found : Except ε (List (List β)),
          (found.map List.flatten).map (List.map erase) =
          (found.map (List.map (List.map erase))).map List.flatten := by
        intro found
        cases found with
        | error fault => rfl
        | ok inside => exact congrArg Except.ok List.map_flatten
      rw [explore, explore]
      rcases Outcome.cases_of_map_eq here with
        ⟨fault, left, right⟩ | ⟨children, children', left, right, inside⟩
      · rw [left, right]
      · rw [left, right]
        have found := Outcome.map_mapM_congr
          (fun child child' alike => explore_congr each tail alike) inside
        simp only
        rw [flat, flat, found]

end Search

end TimedKripke
