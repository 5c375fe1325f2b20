import TimedKripke.Proofs.Outcome
import TimedKripke.Verification.Odometer

/-! # Walking through choices

A walk starts somewhere and goes on by a successor function until there is no successor;
`Orbit` relates the start to the list of all places of the walk. Where a tail moves fastest
and starts again when the head moves on, the walk goes through all pairs in lexicographic
order (`Orbit.product`). An odometer is such a walk (`Odometer.readings_eq`).
-/

namespace TimedKripke

variable {α β γ : Type}

/-- The places of a walk from a given one on. -/
inductive Orbit (next : α → Option α) : α → List α → Prop
  | last {place : α} (ends : next place = none) : Orbit next place [place]
  | step {place successor : α} {rest : List α} (goesOn : next place = some successor)
      (orbit : Orbit next successor rest) : Orbit next place (place :: rest)

namespace Orbit

variable {next : α → Option α} {start : α} {places : List α}

/-- A walk comes to the place where it starts. -/
theorem start_mem (orbit : Orbit next start places) : start ∈ places := by
  cases orbit <;> exact List.mem_cons_self

/-- A walk has one course, since every step is determined. -/
theorem unique (orbit : Orbit next start places) : ∀ {others : List α},
    Orbit next start others → others = places := by
  induction orbit with
  | last ends =>
      rintro others (_ | ⟨goesOn, _⟩)
      · rfl
      · rw [ends] at goesOn
        cases goesOn
  | step goesOn _ later =>
      rintro others (ends | ⟨goesOn', orbit'⟩)
      · rw [ends] at goesOn
        cases goesOn
      · rw [goesOn] at goesOn'
        cases goesOn'
        rw [later orbit']

/-- From every place of a walk on, the walk is what is left of it. -/
theorem exists_suffix (orbit : Orbit next start places) {place : α} (member : place ∈ places) :
    ∃ left, Orbit next place left ∧ left <:+ places := by
  induction orbit with
  | last ends =>
      cases List.mem_singleton.mp member
      exact ⟨_, .last ends, List.suffix_rfl⟩
  | step goesOn orbit later =>
      rcases List.mem_cons.mp member with rfl | inside
      · exact ⟨_, .step goesOn orbit, List.suffix_rfl⟩
      · obtain ⟨left, isLeft, suffix⟩ := later inside
        exact ⟨left, isLeft, suffix.trans (List.suffix_cons _ _)⟩

/-- A walk that ends never comes back to a place: it would have to go round for ever. -/
theorem nodup (orbit : Orbit next start places) : places.Nodup := by
  induction orbit with
  | last ends => exact List.pairwise_singleton _ _
  | step goesOn orbit later =>
      refine List.nodup_cons.mpr ⟨fun member => ?_, later⟩
      obtain ⟨left, isLeft, suffix⟩ := orbit.exists_suffix member
      have same := isLeft.unique (.step goesOn orbit)
      have short := suffix.length_le
      rw [← same, List.length_cons] at short
      omega

/-- A walk stays a walk when it is seen through a function that goes along with the steps. -/
theorem map {view : α → β} {nextView : β → Option β} (orbit : Orbit next start places)
    (along : ∀ place ∈ places, nextView (view place) = (next place).map view) :
    Orbit nextView (view start) (places.map view) := by
  induction orbit with
  | last ends => exact .last (by rw [along _ List.mem_cons_self, ends, Option.map_none])
  | step goesOn _ later =>
      refine .step (by rw [along _ List.mem_cons_self, goesOn, Option.map_some]) (later ?_)
      exact fun place member => along place (List.mem_cons_of_mem _ member)

variable {nextTail : β → Option β} {tail : β} {tails : List β} {nextPair : γ → Option γ}
  {pair : α → β → γ}

/-- The walk through the tails of one head, followed by whatever comes after. -/
theorem along {head : α} {after : List γ} (orbit : Orbit nextTail tail tails)
    (moves : ∀ before ∈ tails, ∀ successor, nextTail before = some successor →
      nextPair (pair head before) = some (pair head successor))
    (rest : ∀ last ∈ tails, nextTail last = none →
      Orbit nextPair (pair head last) (pair head last :: after)) :
    Orbit nextPair (pair head tail) (tails.map (pair head) ++ after) := by
  induction orbit with
  | last ends => exact rest _ List.mem_cons_self ends
  | step goesOn _ others =>
      refine .step (moves _ List.mem_cons_self _ goesOn) (others ?_ ?_)
      · exact fun before member => moves before (List.mem_cons_of_mem _ member)
      · exact fun last member => rest last (List.mem_cons_of_mem _ member)

/-- **Walking through pairs.** The tail moves on if it can; otherwise the head moves on and the
tail starts again. -/
theorem product (orbit : Orbit next start places) (inner : Orbit nextTail tail tails)
    (moves : ∀ head ∈ places, ∀ before ∈ tails, ∀ successor, nextTail before = some successor →
      nextPair (pair head before) = some (pair head successor))
    (carries : ∀ head ∈ places, ∀ last ∈ tails, nextTail last = none →
      nextPair (pair head last) = (next head).map fun successor => pair successor tail) :
    Orbit nextPair (pair start tail) (places.flatMap fun head => tails.map (pair head)) := by
  induction orbit with
  | last ends =>
      rw [List.flatMap_singleton, ← List.append_nil (tails.map _)]
      refine inner.along (moves _ List.mem_cons_self) fun last member tailEnds => .last ?_
      rw [carries _ List.mem_cons_self last member tailEnds, ends]
      rfl
  | step goesOn _ others =>
      rw [List.flatMap_cons]
      refine inner.along (moves _ List.mem_cons_self) fun last member tailEnds => .step ?_
        (others ?_ ?_)
      · rw [carries _ List.mem_cons_self last member tailEnds, goesOn]
        rfl
      · exact fun head isHead => moves head (List.mem_cons_of_mem _ isHead)
      · exact fun head isHead => carries head (List.mem_cons_of_mem _ isHead)

end Orbit

namespace Odometer

/-- All readings, in the order in which an odometer passes through them. -/
def allReadings : List Nat → List (List Nat)
  | [] => [[]]
  | size :: sizes => (List.range size).flatMap fun position =>
      (allReadings sizes).map (position :: ·)

/-- A reading is listed if and only if every digit is below the size of its wheel. -/
theorem mem_allReadings {sizes : List Nat} : ∀ {reading : List Nat},
    reading ∈ allReadings sizes ↔ List.Forall₂ (· < ·) reading sizes := by
  induction sizes with
  | nil => simp [allReadings]
  | cons size sizes others =>
      intro reading
      simp only [allReadings, List.mem_flatMap, List.mem_range, List.mem_map]
      constructor
      · rintro ⟨position, inside, rest, isRest, rfl⟩
        exact .cons inside (others.mp isRest)
      · rintro (_ | ⟨inside, rest⟩)
        exact ⟨_, inside, _, others.mpr rest, rfl⟩

/-- There are as many readings as the product of the sizes says. -/
theorem length_allReadings (sizes : List Nat) :
    (allReadings sizes).length = Count.product sizes := by
  induction sizes with
  | nil => rfl
  | cons size sizes others =>
      rw [allReadings, List.length_flatMap]
      simp [others, Count.product]

/-- Where a wheel has no position, there is no reading. -/
theorem allReadings_eq_nil {sizes : List Nat} (empty : 0 ∈ sizes) : allReadings sizes = [] := by
  rw [List.eq_nil_iff_forall_not_mem]
  intro reading isReading
  obtain ⟨position, _, outside⟩ := Outcome.exists_left (mem_allReadings.mp isReading) empty
  exact Nat.not_lt_zero position outside

/-- Readings are passed in lexicographic order: the last wheel turns fastest. -/
theorem pairwise_allReadings (sizes : List Nat) :
    (allReadings sizes).Pairwise (List.Lex (· < ·)) := by
  induction sizes with
  | nil => exact List.pairwise_singleton _ _
  | cons size sizes others =>
      rw [allReadings, List.pairwise_flatMap]
      constructor
      · intro position _
        rw [List.pairwise_map]
        exact others.imp fun later => .cons later
      · refine List.pairwise_lt_range.imp fun before => ?_
        simp only [List.mem_map]
        rintro _ ⟨reading, _, rfl⟩ _ ⟨other, _, rfl⟩
        exact .rel before

/-- A wheel passes through its positions from any of them to the last. -/
theorem orbit_wheel (size : Nat) : ∀ (left position : Nat), position + left + 1 = size →
    Orbit (fun position => if position + 1 < size then some (position + 1) else none) position
      (List.range' position (left + 1))
  | 0, position, last => .last (if_neg (by omega))
  | left + 1, position, within => by
      refine .step (if_pos (by omega)) ?_
      exact orbit_wheel size left (position + 1) (by omega)

/-- Advancing from all zeros goes through all readings in order, if no wheel is empty. -/
theorem orbit_advance {sizes : List Nat} (positive : ∀ size ∈ sizes, 0 < size) :
    Orbit (advance sizes) (sizes.map fun _ => 0) (allReadings sizes) := by
  induction sizes with
  | nil => exact .last rfl
  | cons size sizes others =>
      have someSize := positive size List.mem_cons_self
      have wheel := orbit_wheel size (size - 1) 0 (by omega)
      rw [Nat.sub_add_cancel someSize, ← List.range_eq_range'] at wheel
      refine wheel.product (others fun other member =>
        positive other (List.mem_cons_of_mem _ member))
        ?_ ?_
      · intro position _ reading _ successor moves
        simp [advance, moves]
      · intro position _ reading isReading ends
        have sameLength := (mem_allReadings.mp isReading).length_eq
        have zeros : (reading.map fun _ => 0) = sizes.map fun _ => 0 := by
          rw [List.map_const', List.map_const', sameLength]
        simp only [advance, ends, zeros]
        split <;> rfl

/-- An odometer that may show enough readings shows all of the walk. -/
theorem readingsFrom_of_orbit {sizes reading : List Nat} {readings : List (List Nat)}
    (orbit : Orbit (advance sizes) reading readings) :
    ∀ {count : Nat}, readings.length ≤ count → readingsFrom sizes count reading = readings := by
  induction orbit with
  | last ends =>
      intro count enough
      obtain ⟨more, rfl⟩ := Nat.exists_eq_add_of_le' enough
      simp [readingsFrom, ends]
  | step goesOn _ others =>
      intro count enough
      obtain ⟨more, rfl⟩ := Nat.exists_eq_succ_of_ne_zero (Nat.ne_zero_of_lt enough)
      simp [readingsFrom, goesOn, others (Nat.le_of_succ_le_succ enough)]

/-- **An odometer passes through all its readings**, each of them once, if no wheel is without
positions. -/
theorem readings_eq {sizes : List Nat} (positive : ∀ size ∈ sizes, 0 < size) :
    readings sizes = allReadings sizes :=
  readingsFrom_of_orbit (orbit_advance positive) (Nat.le_of_eq (length_allReadings sizes))

/-- A reading within the sizes selects one member of every array. -/
theorem mem_select {choices : List (Array α)} {reading : List Nat}
    (within : List.Forall₂ (· < ·) reading (choices.map Array.size)) :
    List.Forall₂ (· ∈ ·) (select reading choices) choices := by
  induction choices generalizing reading with
  | nil =>
      cases within
      exact .nil
  | cons array choices others =>
      rcases within with _ | ⟨inside, rest⟩
      simp only [select, Array.getElem?_eq_getElem inside]
      exact .cons (Array.getElem_mem inside) (others rest)

/-- Members of all arrays are selected by some reading within the sizes. -/
theorem exists_select {choices : List (Array α)} {chosen : List α}
    (members : List.Forall₂ (· ∈ ·) chosen choices) :
    ∃ reading, List.Forall₂ (· < ·) reading (choices.map Array.size) ∧
      select reading choices = chosen := by
  induction members with
  | nil => exact ⟨[], .nil, rfl⟩
  | cons member _ others =>
      obtain ⟨reading, within, selected⟩ := others
      obtain ⟨position, inside, found⟩ := Array.getElem_of_mem member
      refine ⟨position :: reading, .cons inside within, ?_⟩
      simp [select, Array.getElem?_eq_getElem inside, found, selected]

end Odometer

end TimedKripke
