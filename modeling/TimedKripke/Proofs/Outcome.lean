import Mathlib.Data.List.Forall2
import Mathlib.Tactic.Common

/-! # Outcomes of computations that may fail

Computations that succeeded are peeled apart: a sequence into its parts
(`Outcome.bind_eq_ok`), a list that was mapped into its elements
(`Outcome.mapM_eq_ok_iff`).
-/

namespace TimedKripke

namespace Outcome

variable {ε α β γ : Type}

/-- A sequence succeeds exactly if its first part does and the second part succeeds on the answer.
-/
theorem bind_eq_ok {first : Except ε α} {next : α → Except ε β} {answer : β} :
    (first >>= next) = .ok answer ↔ ∃ middle, first = .ok middle ∧ next middle = .ok answer := by
  cases first with
  | error fault =>
      constructor
      · rintro ⟨⟩
      · rintro ⟨_, ⟨⟩, _⟩
  | ok middle =>
      constructor
      · exact fun later => ⟨middle, rfl, later⟩
      · rintro ⟨_, ⟨⟩, later⟩
        exact later

/-- A changed answer stems from the answer before the change. -/
theorem map_eq_ok {first : Except ε α} {change : α → β} {answer : β} :
    first.map change = .ok answer ↔ ∃ middle, first = .ok middle ∧ change middle = answer := by
  cases first with
  | error fault =>
      constructor
      · rintro ⟨⟩
      · rintro ⟨_, ⟨⟩, _⟩
  | ok middle =>
      constructor
      · exact fun same => ⟨middle, rfl, Except.ok.inj same⟩
      · rintro ⟨_, ⟨⟩, rfl⟩
        rfl

/-- Changing the answer leaves the faults alone. -/
theorem map_eq_error {first : Except ε α} {change : α → β} {fault : ε} :
    first.map change = .error fault ↔ first = .error fault := by
  cases first with
  | error failed => exact ⟨fun same => by cases same; rfl, fun same => by cases same; rfl⟩
  | ok answer => exact ⟨nofun, nofun⟩

/-- Two changes of the answer are one. -/
theorem map_map (first : Except ε α) (change : α → β) (next : β → γ) :
    (first.map change).map next = first.map fun answer => next (change answer) := by
  cases first <;> rfl

/-- A list is mapped by mapping its head and then its tail. A fault of the head comes first. -/
theorem mapM_cons {step : α → Except ε β} {item : α} {items : List α} :
    (item :: items).mapM step = step item >>= fun first =>
      (items.mapM step).map (first :: ·) := by
  rw [List.mapM_cons]
  cases step item with
  | error fault => rfl
  | ok first => cases items.mapM step <;> rfl

/-- A list is mapped exactly if each of its elements is. -/
theorem mapM_eq_ok_iff {step : α → Except ε β} {items : List α} : ∀ {answers : List β},
    items.mapM step = .ok answers ↔
      List.Forall₂ (fun item answer => step item = .ok answer) items answers := by
  induction items with
  | nil =>
      intro answers
      constructor
      · rintro ⟨⟩
        exact .nil
      · rintro ⟨⟩
        rfl
  | cons item items others =>
      intro answers
      rw [mapM_cons, bind_eq_ok]
      constructor
      · rintro ⟨first, here, rest⟩
        obtain ⟨later, there, rfl⟩ := map_eq_ok.mp rest
        exact .cons here (others.mp there)
      · rintro (_ | ⟨here, there⟩)
        exact ⟨_, here, map_eq_ok.mpr ⟨_, others.mpr there, rfl⟩⟩

/-- Whatever stands on the right of a related pair of lists has its partner on the left. -/
theorem exists_left {Related : α → β → Prop} {items : List α} {answers : List β}
    (related : List.Forall₂ Related items answers) {answer : β} (member : answer ∈ answers) :
    ∃ item ∈ items, Related item answer := by
  induction related with
  | nil => cases member
  | cons here _ others =>
      rcases List.mem_cons.mp member with rfl | later
      · exact ⟨_, List.mem_cons_self, here⟩
      · obtain ⟨item, isItem, relates⟩ := others later
        exact ⟨item, List.mem_cons_of_mem _ isItem, relates⟩

/-- Whatever stands on the left of a related pair of lists has its partner on the right. -/
theorem exists_right {Related : α → β → Prop} {items : List α} {answers : List β}
    (related : List.Forall₂ Related items answers) {item : α} (member : item ∈ items) :
    ∃ answer ∈ answers, Related item answer :=
  exists_left related.flip member

/-- What stands at a place on the right of a related pair of lists is related to what stands
there on the left. -/
theorem exists_getElem?_left {Related : α → β → Prop} {items : List α} {answers : List β}
    (related : List.Forall₂ Related items answers) {index : Nat} {answer : β}
    (found : answers[index]? = some answer) :
    ∃ item, items[index]? = some item ∧ Related item answer := by
  obtain ⟨inside, rfl⟩ := List.getElem?_eq_some_iff.mp found
  have insideLeft : index < items.length := related.length_eq ▸ inside
  exact ⟨items[index], List.getElem?_eq_getElem insideLeft, related.get insideLeft inside⟩

/-- Related lists relate the pairs that stand at one place. -/
theorem exists_zip {Related : α → β → Prop} {items : List α} {answers : List β}
    (related : List.Forall₂ Related items answers) {item : α} (member : item ∈ items) :
    ∃ answer, (item, answer) ∈ items.zip answers ∧ Related item answer := by
  induction related with
  | nil => cases member
  | cons here _ others =>
      rcases List.mem_cons.mp member with rfl | later
      · exact ⟨_, List.mem_cons_self, here⟩
      · obtain ⟨answer, isPair, relates⟩ := others later
        exact ⟨answer, List.mem_cons_of_mem _ isPair, relates⟩

/-- Where every element has an answer, there is a list of answers. -/
theorem exists_forall₂ {Related : α → β → Prop} {items : List α}
    (each : ∀ item ∈ items, ∃ answer, Related item answer) :
    ∃ answers, List.Forall₂ Related items answers := by
  induction items with
  | nil => exact ⟨[], .nil⟩
  | cons item rest others =>
      obtain ⟨answer, here⟩ := each item List.mem_cons_self
      obtain ⟨answers, later⟩ := others fun next member => each next (List.mem_cons_of_mem _ member)
      exact ⟨answer :: answers, .cons here later⟩

/-- The answers of a mapped list are the answers to its elements. -/
theorem mem_of_mapM {step : α → Except ε β} {items : List α} {answers : List β}
    (mapped : items.mapM step = .ok answers) {answer : β} (member : answer ∈ answers) :
    ∃ item ∈ items, step item = .ok answer :=
  exists_left (mapM_eq_ok_iff.mp mapped) member

/-- Every element of a mapped list has its answer. -/
theorem exists_of_mapM {step : α → Except ε β} {items : List α} {answers : List β}
    (mapped : items.mapM step = .ok answers) {item : α} (member : item ∈ items) :
    ∃ answer ∈ answers, step item = .ok answer :=
  exists_right (mapM_eq_ok_iff.mp mapped) member

/-- Of lists none of which keeps anything, nothing is kept. -/
theorem filter_flatten_eq_nil {step : α → Except ε (List β)} {keep : β → Bool} {items : List α}
    {answers : List (List β)} (mapped : items.mapM step = .ok answers)
    (none : ∀ item ∈ items, ∀ answer, step item = .ok answer → answer.filter keep = []) :
    answers.flatten.filter keep = [] := by
  rw [List.filter_eq_nil_iff]
  intro kept member
  obtain ⟨answer, isAnswer, inside⟩ := List.mem_flatten.mp member
  obtain ⟨item, isItem, answered⟩ := mem_of_mapM mapped isAnswer
  exact List.filter_eq_nil_iff.mp (none item isItem answer answered) kept inside

/-- Where only one element is chosen and the others keep nothing, what is kept is kept of the
answer to the one that is chosen. -/
theorem filter_flatten_of_chosen {step : α → Except ε (List β)} {keep : β → Bool}
    {choose : α → Bool} {items : List α} {chosen : α} : ∀ {answers : List (List β)},
    items.mapM step = .ok answers → items.filter choose = [chosen] →
      (∀ item ∈ items, choose item = false → ∀ answer, step item = .ok answer →
        answer.filter keep = []) →
        ∃ answer, step chosen = .ok answer ∧ answers.flatten.filter keep = answer.filter keep := by
  induction items with
  | nil => exact fun _ impossible => nomatch impossible
  | cons item items others =>
      intro answers mapped isChosen none
      rw [mapM_cons, bind_eq_ok] at mapped
      obtain ⟨first, here, rest⟩ := mapped
      obtain ⟨later, there, rfl⟩ := map_eq_ok.mp rest
      rw [List.flatten_cons, List.filter_append]
      cases isHere : choose item with
      | true =>
          rw [List.filter_cons_of_pos isHere] at isChosen
          obtain ⟨rfl, noneChosen⟩ := List.cons.inj isChosen
          refine ⟨first, here, ?_⟩
          rw [filter_flatten_eq_nil there, List.append_nil]
          intro other member
          refine none other (List.mem_cons_of_mem _ member) ?_
          exact Bool.eq_false_iff.mpr (List.filter_eq_nil_iff.mp noneChosen other member)
      | false =>
          rw [List.filter_cons_of_neg (by simp [isHere])] at isChosen
          obtain ⟨answer, answered, kept⟩ := others there isChosen
            fun other member => none other (List.mem_cons_of_mem _ member)
          refine ⟨answer, answered, ?_⟩
          rw [none item List.mem_cons_self isHere first here, List.nil_append, kept]

/-- Outcomes that are the same up to `erase` are the same fault, or answers that are the same up
to `erase`. -/
theorem cases_of_map_eq {erase : α → γ} {first second : Except ε α}
    (same : first.map erase = second.map erase) :
    (∃ fault, first = .error fault ∧ second = .error fault) ∨
      ∃ left right, first = .ok left ∧ second = .ok right ∧ erase left = erase right := by
  cases first with
  | error fault =>
      cases second with
      | error fault' =>
          cases same
          exact .inl ⟨fault, rfl, rfl⟩
      | ok right => cases same
  | ok left =>
      cases second with
      | error fault' => cases same
      | ok right => exact .inr ⟨left, right, rfl, rfl, Except.ok.inj same⟩

/-- Sequences are the same up to `erase'` if their first parts are the same up to `erase` and
the rest respects that. -/
theorem map_bind_congr {δ : Type} {erase : α → γ} {erase' : β → δ} {first second : Except ε α}
    {next next' : α → Except ε β} (same : first.map erase = second.map erase)
    (later : ∀ left right, erase left = erase right →
      (next left).map erase' = (next' right).map erase') :
    (first >>= next).map erase' = (second >>= next').map erase' := by
  rcases cases_of_map_eq same with ⟨fault, rfl, rfl⟩ | ⟨left, right, rfl, rfl, alike⟩
  · rfl
  · exact later left right alike

/-- Sequences with the same first part agree up to an erasure if what follows does. -/
theorem map_bind_congr_right {δ : Type} {erase : β → δ} {first : Except ε α}
    {next next' : α → Except ε β}
    (later : ∀ answer, (next answer).map erase = (next' answer).map erase) :
    (first >>= next).map erase = (first >>= next').map erase := by
  cases first with
  | error fault => rfl
  | ok answer => exact later answer

/-- Lists that are the same up to `view` are mapped alike by what respects `view`. -/
theorem map_congr_of_view {view : α → γ} {change change' : α → β}
    (each : ∀ item item', view item = view item' → change item = change' item') :
    ∀ {items items' : List α}, items.map view = items'.map view →
      items.map change = items'.map change'
  | [], [], _ => rfl
  | [], _ :: _, impossible => nomatch impossible
  | _ :: _, [], impossible => nomatch impossible
  | item :: items, item' :: items', same => by
      obtain ⟨head, tail⟩ := List.cons.inj same
      rw [List.map_cons, List.map_cons, each item item' head, map_congr_of_view each tail]

/-- Mapped lists are the same up to `erase` if their elements are the same up to `view` and
each step respects that. -/
theorem map_mapM_congr {δ : Type} {step step' : α → Except ε β} {view : α → γ} {erase : β → δ}
    (each : ∀ item item', view item = view item' →
      (step item).map erase = (step' item').map erase) :
    ∀ {items items' : List α}, items.map view = items'.map view →
      (items.mapM step).map (List.map erase) = (items'.mapM step').map (List.map erase)
  | [], [], _ => rfl
  | [], _ :: _, impossible => nomatch impossible
  | _ :: _, [], impossible => nomatch impossible
  | item :: items, item' :: items', same => by
      obtain ⟨head, tail⟩ := List.cons.inj same
      have apart : ∀ (first : Except ε β) (rest : Except ε (List β)),
          (first >>= fun answer => rest.map (answer :: ·)).map (List.map erase) =
            first.map erase >>= fun answer => (rest.map (List.map erase)).map (answer :: ·) := by
        intro first rest
        cases first <;> cases rest <;> rfl
      rw [mapM_cons, mapM_cons, apart, apart, each item item' head, map_mapM_congr each tail]

/-- Mapping a list with steps that agree up to an erasure gives lists that do. -/
theorem map_mapM_congr_right {δ : Type} {step step' : α → Except ε β} {erase : β → δ}
    (each : ∀ item, (step item).map erase = (step' item).map erase) (items : List α) :
    (items.mapM step).map (List.map erase) = (items.mapM step').map (List.map erase) := by
  refine map_mapM_congr (fun item item' same => ?_) (rfl : items.map id = _)
  cases same
  exact each item

/-- Folds are the same up to `erase` if their elements are the same up to `view` and each step
respects that. -/
theorem map_foldlM_congr {δ : Type} {step step' : β → α → Except ε β} {view : α → γ} {erase : β → δ}
    (each : ∀ state state' item item', erase state = erase state' → view item = view item' →
      (step state item).map erase = (step' state' item').map erase) :
    ∀ {items items' : List α}, items.map view = items'.map view → ∀ {state state' : β},
      erase state = erase state' →
        (items.foldlM step state).map erase = (items'.foldlM step' state').map erase
  | [], [], _, _, _, same => congrArg Except.ok same
  | [], _ :: _, impossible, _, _, _ => nomatch impossible
  | _ :: _, [], impossible, _, _, _ => nomatch impossible
  | item :: items, item' :: items', sameItems, state, state', same => by
      obtain ⟨head, tail⟩ := List.cons.inj sameItems
      rw [List.foldlM_cons, List.foldlM_cons]
      exact map_bind_congr (each state state' item item' same head)
        fun _ _ alike => map_foldlM_congr each tail alike

/-- What every step of a fold preserves holds at its end. `Holds` may depend on the items that
are left. -/
theorem foldlM_preserves {step : β → α → Except ε β} {Holds : List α → β → Prop}
    (each : ∀ {item rest state next}, Holds (item :: rest) state → step state item = .ok next →
      Holds rest next) :
    ∀ {items : List α} {state final : β}, Holds items state →
      items.foldlM step state = .ok final → Holds [] final
  | [], _, _, start, folded => by
      cases folded
      exact start
  | item :: items, state, final, start, folded => by
      rw [List.foldlM_cons] at folded
      obtain ⟨next, first, others⟩ := bind_eq_ok.mp folded
      exact foldlM_preserves each (each start first) others

end Outcome

end TimedKripke
