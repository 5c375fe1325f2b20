import TimedKripke.Proofs.Enumeration.Domain
import TimedKripke.Proofs.Variation.Section

/-! # The inputs of an environment

An environment gives every input a value. Among the assignments that a branch tries for a
timeslot exactly one agrees with an environment (`SectionBranch.filter_assignments`): the one in
which every observed input has the environment's value (`Instance.readings`).
-/

namespace TimedKripke

/-- The values that an environment gives to its inputs. -/
abbrev Valuation := String → Value

/-- The entries are those of the environment. -/
def Valuation.agrees (valuation : Valuation) (values : PropertyList) : Bool :=
  values.all fun entry => valuation entry.1 == entry.2

/-- The inputs an instance observes, as the environment gives them. -/
def Instance.readings (running : Instance) (valuation : Valuation) : PropertyList :=
  OrderedMap.ofList (running.observedInputs.map fun input => (input.name, valuation input.name))

namespace Valuation

variable {valuation : Valuation}

/-- Names with the values that the environment gives them. -/
def entries (valuation : Valuation) (names : List String) : PropertyList :=
  names.map fun name => (name, valuation name)

/-- Names paired with their values are the entries of the environment. -/
theorem zip_map_eq_entries (names : List String) :
    names.zip (names.map valuation) = valuation.entries names := by
  induction names with
  | nil => rfl
  | cons name rest others => rw [List.map_cons, List.zip_cons_cons, others]; rfl

/-- An entry is found for the given names only, with the value of the environment. -/
theorem lookup_entries (names : List String) (key : String) :
    (valuation.entries names).lookup key = if key ∈ names then some (valuation key) else none := by
  induction names with
  | nil => rfl
  | cons name rest others =>
      rw [entries, List.map_cons, List.lookup_cons, ← entries, others]
      by_cases here : key = name
      · simp [here]
      · rw [beq_false_of_ne here]
        simp [here]

/-- Written above other values, the entries of an environment count for the given names. -/
theorem lookup_extend_entries (values : PropertyList) (names : List String) (key : String) :
    (OrderedMap.extend values (valuation.entries names)).lookup key =
      if key ∈ names then some (valuation key) else values.lookup key := by
  have reversed : (valuation.entries names).reverse = valuation.entries names.reverse := by
    rw [entries, entries, List.map_reverse]
  rw [OrderedMap.lookup_extend, reversed, lookup_entries]
  simp only [List.mem_reverse]
  split <;> rfl

/-- What an environment agrees with holds its values. -/
theorem lookup_of_agrees {values : PropertyList} (agrees : valuation.agrees values = true)
    {key : String} {value : Value} (found : values.lookup key = some value) :
    valuation key = value := by
  have here := List.all_eq_true.mp agrees _ (OrderedMap.mem_of_lookup found)
  exact beq_iff_eq.mp here

/-- An environment agrees with its own entries. -/
theorem agrees_ofList (names : List String) :
    valuation.agrees (OrderedMap.ofList (valuation.entries names)) = true := by
  refine List.all_eq_true.mpr fun entry member => beq_iff_eq.mpr ?_
  have ascending : (OrderedMap.ofList (valuation.entries names)).keys.Pairwise (· < ·) :=
    OrderedMap.pairwise_keys_extend List.Pairwise.nil
  have found := OrderedMap.lookup_of_mem (ascending.imp Std.ne_of_lt) member
  rw [OrderedMap.ofList, lookup_extend_entries] at found
  split at found
  · exact Option.some.inj found
  · cases found

end Valuation

namespace SectionBranch

/-- The inputs of a timeslot, where those read for the first time hold a tuple of values. -/
def assigned (branch : SectionBranch) (observed : List External) (tuple : List Value) :
    PropertyList :=
  OrderedMap.extend (branch.shared observed) (((branch.free observed).map Prod.fst).zip tuple)

/-- The inputs that a branch has read are those of the environment. -/
def Reads (valuation : Valuation) (branch : SectionBranch) : Prop :=
  ∀ {name : String} {value : Value}, branch.fixed.lookup name = some value → valuation name = value

variable {branch : SectionBranch} {valuation : Valuation} {observed : List External}

/-- What an instance reads are the entries of the environment for its observed inputs. -/
theorem readings_eq (running : Instance) (valuation : Valuation) :
    running.readings valuation =
      OrderedMap.ofList (valuation.entries (running.observedInputs.map External.name)) := by
  rw [Instance.readings, Valuation.entries, List.map_map]
  rfl

/-- The free inputs are the observed ones whose names are not fixed yet. -/
theorem names_free (branch : SectionBranch) (observed : List External) :
    (branch.free observed).map Prod.fst = (observed.filter fun input =>
      !OrderedMap.contains branch.fixed input.name).map External.name := by
  rw [free, List.map_map]
  rfl

/-- Inputs that were read before hold what the environment gives them. -/
theorem shared_eq (reads : branch.Reads valuation) (observed : List External) :
    branch.shared observed = OrderedMap.ofList (valuation.entries
      ((observed.filter fun input => OrderedMap.contains branch.fixed input.name).map
        External.name)) := by
  refine congrArg OrderedMap.ofList ?_
  induction observed with
  | nil => rfl
  | cons input rest others =>
      rw [List.filterMap_cons, List.filter_cons, OrderedMap.contains]
      cases known : branch.fixed.lookup input.name with
      | none => simpa using others
      | some value =>
          simp only [Option.map_some, Option.isSome_some, if_true, List.map_cons,
            Valuation.entries, reads known, List.cons.injEq, true_and]
          exact others

/-- Selecting inputs by name is selecting their names. -/
theorem mem_filter_names {keep : String → Bool} {observed : List External} {key : String} :
    key ∈ (observed.filter fun input => keep input.name).map External.name ↔
      key ∈ observed.map External.name ∧ keep key = true := by
  simp only [List.mem_map, List.mem_filter]
  constructor
  · rintro ⟨input, ⟨member, kept⟩, rfl⟩
    exact ⟨⟨input, member, rfl⟩, kept⟩
  · rintro ⟨⟨input, member, rfl⟩, kept⟩
    exact ⟨input, ⟨member, kept⟩, rfl⟩

/-- With the values of the environment the inputs are those of the environment. -/
theorem assigned_eq (reads : branch.Reads valuation) (observed : List External) :
    branch.assigned observed (((branch.free observed).map Prod.fst).map valuation) =
      OrderedMap.ofList (valuation.entries (observed.map External.name)) := by
  rw [assigned, shared_eq reads, Valuation.zip_map_eq_entries]
  refine OrderedMap.ext_of_lookup ?_ ?_ fun key => ?_
  · exact OrderedMap.pairwise_keys_extend (OrderedMap.pairwise_keys_extend List.Pairwise.nil)
  · exact OrderedMap.pairwise_keys_extend List.Pairwise.nil
  · have free := @mem_filter_names (fun name => !OrderedMap.contains branch.fixed name) observed key
    have shared := @mem_filter_names (fun name => OrderedMap.contains branch.fixed name)
      observed key
    rw [OrderedMap.ofList, OrderedMap.ofList]
    simp only [Valuation.lookup_extend_entries, names_free, free, shared]
    by_cases isObserved : key ∈ observed.map External.name
    · cases OrderedMap.contains branch.fixed key <;> simp [isObserved]
    · simp [isObserved]

/-- Inputs agree with the environment if what is read for the first time does. -/
theorem agrees_assigned_iff (reads : branch.Reads valuation)
    (distinct : (observed.map External.name).Nodup) {tuple : List Value}
    (counted : tuple.length = (branch.free observed).length) :
    valuation.agrees (branch.assigned observed tuple) = true ↔
      tuple = ((branch.free observed).map Prod.fst).map valuation := by
  have distinctFree : ((branch.free observed).map Prod.fst).Nodup := by
    rw [names_free]
    exact (List.filter_sublist.map _).nodup distinct
  have keys : (((branch.free observed).map Prod.fst).zip tuple).map Prod.fst =
      (branch.free observed).map Prod.fst := List.map_fst_zip (by simp [counted])
  constructor
  · intro agrees
    have values : (((branch.free observed).map Prod.fst).zip tuple).map Prod.snd =
        (((branch.free observed).map Prod.fst).zip tuple).map fun entry => valuation entry.1 := by
      refine List.map_congr_left fun entry member => (Valuation.lookup_of_agrees agrees ?_).symm
      rw [assigned, OrderedMap.lookup_extend_of_nodup (keys.symm ▸ distinctFree),
        OrderedMap.lookup_of_mem (keys.symm ▸ distinctFree) member]
      rfl
    rw [List.map_snd_zip (by simp [counted])] at values
    calc tuple
        = (((branch.free observed).map Prod.fst).zip tuple).map fun entry => valuation entry.1 :=
          values
      _ = ((((branch.free observed).map Prod.fst).zip tuple).map Prod.fst).map valuation := by
          rw [List.map_map]
          rfl
      _ = ((branch.free observed).map Prod.fst).map valuation := by rw [keys]
  · rintro rfl
    rw [assigned_eq reads]
    exact Valuation.agrees_ofList _

/-- **Exactly one tuple agrees with an environment**: the one with its values for the inputs that
are free. -/
theorem filter_assignments (reads : branch.Reads valuation)
    (distinct : (observed.map External.name).Nodup)
    (accepted : ∀ input ∈ observed, input.type.accepts (valuation input.name) = true)
    {combinations : Combinations}
    (made : Combinations.named (branch.free observed) = .ok combinations) :
    (combinations.toList.filter fun tuple => valuation.agrees (branch.assigned observed tuple)) =
      [((branch.free observed).map Prod.fst).map valuation] := by
  obtain ⟨nodup, members⟩ := Combinations.toList_of_named made
  have inside : ((branch.free observed).map Prod.fst).map valuation ∈ combinations.toList := by
    rw [members, AcceptedTuple, List.map_map, List.forall₂_map_left_iff, List.forall₂_map_right_iff,
      List.forall₂_same]
    intro source isSource
    obtain ⟨input, isInput, rfl⟩ := List.mem_map.mp isSource
    exact accepted input (List.mem_filter.mp isInput).1
  have choice : ∀ tuple ∈ combinations.toList, valuation.agrees (branch.assigned observed tuple) =
      (tuple == ((branch.free observed).map Prod.fst).map valuation) := by
    intro tuple member
    have counted : tuple.length = (branch.free observed).length := by
      simpa using ((members tuple).mp member).length_eq.symm
    rw [Bool.eq_iff_iff, agrees_assigned_iff reads distinct counted, beq_iff_eq]
  rw [List.filter_congr choice, List.filter_beq, List.count_eq_one_of_mem nodup inside]
  rfl

end SectionBranch

end TimedKripke
