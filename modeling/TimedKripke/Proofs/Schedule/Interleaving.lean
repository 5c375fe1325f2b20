import Mathlib.Data.List.Forall2
import Mathlib.Data.List.Nodup
import TimedKripke.Live
import TimedKripke.Verification.Expansion

/-! # Interleaving threads

The sections of all threads run in the order of their start. Sorting them is stable
(`filter_mergeSort`), so the sections of one thread keep their order if they are in the order
of their start (`Indexed.ofThread_sorted`), and what order results depends on their starts only. The
live scheduler and the verification sort in the same way (`LiveScheduler.orderedSections_eq`,
`ScheduledPath.sorted_ofPathways`).
-/

namespace TimedKripke

/-- Sorting is stable: what is kept of a list and is in order, is kept in that order. -/
theorem filter_mergeSort {α : Type} {le : α → α → Bool}
    (trans : ∀ first second third, le first second → le second third → le first third)
    (total : ∀ first second, le first second || le second first) {items : List α}
    {keep : α → Bool} (sorted : (items.filter keep).Pairwise fun first second => le first second) :
    (items.mergeSort le).filter keep = items.filter keep := by
  have inside : (items.filter keep).Sublist ((items.mergeSort le).filter keep) := by
    have kept := (List.sublist_mergeSort trans total sorted List.filter_sublist).filter keep
    simpa [List.filter_filter] using kept
  refine (inside.eq_of_length ?_).symm
  exact ((List.mergeSort_perm items le).filter keep).length_eq.symm

/-- An item of one of several lists, with the place of the list and its own place there. -/
structure Indexed (α : Type) where
  /-- The place of the list. -/
  thread : Nat
  /-- The place in the list. -/
  part : Nat
  item : α

namespace Indexed

variable {α β : Type}

/-- The items of several lists, list by list. -/
def all (lists : List (List α)) : List (Indexed α) :=
  lists.zipIdx.flatMap fun list => list.1.zipIdx.map fun item =>
    { thread := list.2, part := item.2, item := item.1 }

/-- Another item in the same place. -/
def map (change : α → β) (indexed : Indexed α) : Indexed β :=
  { thread := indexed.thread, part := indexed.part, item := change indexed.item }

/-- The items of one list. -/
def ofThread (thread : Nat) (items : List (Indexed α)) : List (Indexed α) :=
  items.filter fun indexed => indexed.thread == thread

/-- Items in the order of their start, and of their lists when they start together. -/
def startsBefore (start : α → Time) (first second : Indexed α) : Bool :=
  decide (start first.item < start second.item) ||
    (start first.item == start second.item && decide (first.thread ≤ second.thread))

/-- The items of one list by themselves. -/
def itemsOf (place : Nat) (items : List (Indexed α)) : List α :=
  (ofThread place items).map item

/-- An item of a thread comes before the later items of that thread. -/
theorem itemsOf_cons_self (indexed : Indexed α) (items : List (Indexed α)) :
    itemsOf indexed.thread (indexed :: items) = indexed.item :: itemsOf indexed.thread items := by
  simp [itemsOf, ofThread]

/-- An item of another thread is passed over. -/
theorem itemsOf_cons_of_ne {place : Nat} {indexed : Indexed α} (other : indexed.thread ≠ place)
    (items : List (Indexed α)) : itemsOf place (indexed :: items) = itemsOf place items := by
  simp [itemsOf, ofThread, other]

/-- What holds of the items of every list and its own holder still holds when one item is gone and
the holder of its list has changed. -/
theorem each_set {γ : Type} (Holds : List α → γ → Prop) {indexed : Indexed α}
    {items : List (Indexed α)} {holders : List γ} {after : γ}
    (each : ∀ place holder, holders[place]? = some holder →
      Holds (itemsOf place (indexed :: items)) holder)
    (here : Holds (itemsOf indexed.thread items) after) :
    ∀ place holder, (holders.set indexed.thread after)[place]? = some holder →
      Holds (itemsOf place items) holder := by
  intro place holder found
  by_cases same : indexed.thread = place
  · subst same
    have inside : indexed.thread < (holders.set indexed.thread after).length :=
      (List.getElem?_eq_some_iff.mp found).choose
    rw [List.length_set] at inside
    rw [List.getElem?_set_self inside] at found
    cases found
    exact here
  · rw [List.getElem?_set_ne same] at found
    have before := each place holder found
    rwa [itemsOf_cons_of_ne same] at before

/-- Changing the items commutes with picking those of one thread, as the indices stay. -/
theorem ofThread_map (change : α → β) (place : Nat) (items : List (Indexed α)) :
    ofThread place (items.map (map change)) = (ofThread place items).map (map change) := by
  unfold ofThread
  rw [List.filter_map]
  rfl

/-- The items of a thread are changed one by one. -/
theorem itemsOf_map (change : α → β) (place : Nat) (items : List (Indexed α)) :
    itemsOf place (items.map (map change)) = (itemsOf place items).map change := by
  rw [itemsOf, ofThread_map, itemsOf, List.map_map, List.map_map]
  rfl

/-- Indexed pairs are determined by their first parts with their places and by their second parts in
order. -/
theorem eq_of_pairs {first : List (Indexed (α × β))} : ∀ {second : List (Indexed (α × β))},
    first.map (map Prod.fst) = second.map (map Prod.fst) →
      (first.map item).map Prod.snd = (second.map item).map Prod.snd → first = second := by
  induction first with
  | nil =>
      intro second left _
      exact (List.map_eq_nil_iff.mp left.symm).symm
  | cons pair rest others =>
      intro second left right
      cases second with
      | nil => cases left
      | cons pair' rest' =>
          obtain ⟨here, there⟩ := List.cons.inj left
          obtain ⟨here', there'⟩ := List.cons.inj right
          obtain ⟨thread, part, item⟩ := pair
          obtain ⟨thread', part', item'⟩ := pair'
          obtain ⟨rfl, rfl, sameLeft⟩ := Indexed.mk.inj here
          obtain rfl : item = item' := Prod.ext sameLeft here'
          rw [others there there']

/-- Indexing the changed lists is changing the indexed items. -/
theorem map_all (change : α → β) (lists : List (List α)) :
    (all lists).map (map change) = all (lists.map (List.map change)) := by
  unfold all
  rw [List.map_flatMap, List.zipIdx_map, List.flatMap_map]
  refine List.flatMap_congr fun list _ => ?_
  change _ = List.map _ (list.1.map change).zipIdx
  rw [List.zipIdx_map, List.map_map, List.map_map]
  rfl

/-- The items of a thread, among those of all threads, are those of its list with their places in
it. -/
theorem ofThread_all (lists : List (List α)) (thread : Nat) :
    ofThread thread (all lists) = ((lists[thread]?).getD []).zipIdx.map fun item =>
      { thread, part := item.2, item := item.1 } := by
  have placed : ∀ (lists : List (List α)) (first : Nat), ofThread thread
      ((lists.zipIdx first).flatMap fun list => list.1.zipIdx.map fun item =>
        { thread := list.2, part := item.2, item := item.1 }) =
      if first ≤ thread then ((lists[thread - first]?).getD []).zipIdx.map fun item =>
        { thread, part := item.2, item := item.1 } else [] := by
    intro lists
    induction lists with
    | nil => intro first; simp [ofThread]
    | cons list rest others =>
        intro first
        have here : ofThread thread (list.zipIdx.map fun item =>
            ({ thread := first, part := item.2, item := item.1 } : Indexed α)) =
            if first = thread then list.zipIdx.map fun item =>
              { thread := first, part := item.2, item := item.1 } else [] := by
          unfold ofThread
          by_cases same : first = thread <;> simp [List.filter_map, Function.comp_def, same]
        rw [List.zipIdx_cons, List.flatMap_cons, ofThread, List.filter_append, ← ofThread,
          ← ofThread, others, here]
        by_cases same : first = thread
        · subst same
          simp [Nat.not_succ_le_self first]
        · by_cases before : first ≤ thread
          · have later : first + 1 ≤ thread := by omega
            have place : thread - first = (thread - (first + 1)) + 1 := by omega
            simp [same, before, later, place]
          · have notLater : ¬ first + 1 ≤ thread := by omega
            simp [same, before, notLater]
  have whole := placed lists 0
  rwa [if_pos (Nat.zero_le _), Nat.sub_zero] at whole

/-- An indexed item stands where its indices say. -/
theorem getElem?_of_mem_all {lists : List (List α)} {indexed : Indexed α}
    (member : indexed ∈ all lists) :
    ∃ list, lists[indexed.thread]? = some list ∧ list[indexed.part]? = some indexed.item := by
  obtain ⟨⟨list, thread⟩, isList, member⟩ := List.mem_flatMap.mp member
  obtain ⟨⟨item, part⟩, isItem, rfl⟩ := List.mem_map.mp member
  exact ⟨list, List.mem_zipIdx_iff_getElem?.mp isList, List.mem_zipIdx_iff_getElem?.mp isItem⟩

/-- Every item has a place of its own. -/
theorem nodup_all (lists : List (List α)) :
    ((all lists).map fun indexed => (indexed.thread, indexed.part)).Nodup := by
  have places {β : Type} (items : List β) : (items.zipIdx.map Prod.snd).Nodup := by
    rw [List.zipIdx_map_snd]
    exact List.nodup_range'
  unfold all
  rw [List.map_flatMap, List.nodup_flatMap]
  constructor
  · intro list _
    rw [List.map_map]
    have own := (places list.1).map fun _ _ same => (Prod.mk.inj (same : (list.2, _) = _)).2
    rwa [List.map_map] at own
  · refine (List.pairwise_map.mp (places lists)).imp fun {first second} differ => ?_
    intro place isFirst isSecond
    simp only [List.map_map, List.mem_map, Function.comp_apply] at isFirst isSecond
    obtain ⟨_, _, rfl⟩ := isFirst
    obtain ⟨_, _, same⟩ := isSecond
    exact differ (Prod.mk.inj same).1.symm

/-- The items of a thread, among those of all threads, are the list of the thread. -/
theorem itemsOf_all (lists : List (List α)) (thread : Nat) :
    itemsOf thread (all lists) = (lists[thread]?).getD [] := by
  rw [itemsOf, ofThread_all, List.map_map]
  exact List.zipIdx_map_fst 0 _

/-- The order of items by start and thread is transitive. -/
theorem startsBefore_trans (start : α → Time) (first second third : Indexed α)
    (left : first.startsBefore start second = true)
    (right : second.startsBefore start third = true) : first.startsBefore start third = true := by
  unfold startsBefore at *
  simp only [Bool.or_eq_true, Bool.and_eq_true, decide_eq_true_eq, beq_iff_eq] at *
  rcases left with left | ⟨left, before⟩
  · rcases right with right | ⟨right, _⟩
    · exact .inl (UInt64.lt_trans left right)
    · exact .inl (right ▸ left)
  · rcases right with right | ⟨right, before'⟩
    · exact .inl (left ▸ right)
    · exact .inr ⟨left.trans right, Nat.le_trans before before'⟩

/-- The order of items by start and thread is total. -/
theorem startsBefore_total (start : α → Time) (first second : Indexed α) :
    (first.startsBefore start second || second.startsBefore start first) = true := by
  unfold startsBefore
  simp only [Bool.or_eq_true, Bool.and_eq_true, decide_eq_true_eq, beq_iff_eq]
  by_cases same : start first.item = start second.item
  · rcases Nat.le_total first.thread second.thread with before | after
    · exact .inl (.inr ⟨same, before⟩)
    · exact .inr (.inr ⟨same.symm, after⟩)
  · rcases UInt64.lt_or_lt_of_ne same with before | after
    · exact .inl (.inl before)
    · exact .inr (.inl after)

/-- **A thread keeps its order.** Where the items of every list are in the order of their start,
sorting all of them leaves those of one list in their order. -/
theorem ofThread_sorted {lists : List (List α)} {start : α → Time}
    (ordered : ∀ list ∈ lists, list.Pairwise fun first second => start first ≤ start second)
    (thread : Nat) :
    ofThread thread ((all lists).mergeSort (startsBefore start)) = ofThread thread (all lists) := by
  refine filter_mergeSort (startsBefore_trans start) (startsBefore_total start) ?_
  rw [← ofThread, ofThread_all]
  have inOrder : ((lists[thread]?).getD []).Pairwise fun first second =>
      start first ≤ start second := by
    cases found : lists[thread]? with
    | none => exact List.Pairwise.nil
    | some list => exact ordered list (List.mem_of_getElem? found)
  rw [List.pairwise_map]
  have withPlaces := (List.zipIdx_map_fst 0 ((lists[thread]?).getD [])).symm ▸ inOrder
  rw [List.pairwise_map] at withPlaces
  refine withPlaces.imp fun {first second} before => ?_
  unfold startsBefore
  simp only [Bool.or_eq_true, Bool.and_eq_true, decide_eq_true_eq, beq_iff_eq, Nat.le_refl,
    and_true]
  rcases UInt64.lt_or_eq_of_le before with earlier | together
  · exact .inl earlier
  · exact .inr together

/-- Sorting commutes with a change of the items that keeps their starts. -/
theorem map_sorted {start : α → Time} {start' : β → Time} {change : α → β}
    {items : List (Indexed α)}
    (same : ∀ indexed ∈ items, start' (change indexed.item) = start indexed.item) :
    (items.mergeSort (startsBefore start)).map (map change) =
      (items.map (map change)).mergeSort (startsBefore start') := by
  refine List.map_mergeSort fun first isFirst second isSecond => ?_
  unfold startsBefore map
  rw [same first isFirst, same second isSecond]

/-- Items that are interleaved in the same way, with the same items of every list, are the same. -/
theorem eq_of_ofThread {first : List (Indexed α)} : ∀ {second : List (Indexed α)},
    first.map thread = second.map thread →
      (∀ thread, ofThread thread first = ofThread thread second) → first = second := by
  induction first with
  | nil =>
      intro second threads _
      exact (List.map_eq_nil_iff.mp threads.symm).symm
  | cons item rest others =>
      intro second threads each
      cases second with
      | nil => cases threads
      | cons item' rest' =>
          obtain ⟨same, sameRest⟩ := List.cons.inj threads
          have heads := each item.thread
          unfold ofThread at heads
          rw [List.filter_cons_of_pos (by simp), List.filter_cons_of_pos (by simp [same])] at heads
          obtain ⟨rfl, _⟩ := List.cons.inj heads
          refine congrArg (item :: ·) (others sameRest fun thread => ?_)
          have here := each thread
          unfold ofThread at here ⊢
          rw [List.filter_cons, List.filter_cons] at here
          split at here
          · exact (List.cons.inj here).2
          · exact here

end Indexed

/-- The sections of threads in the order in which they run. -/
def ScheduleThread.interleaved (threads : List ScheduleThread) : List (Indexed SnapshotSection) :=
  (Indexed.all (threads.map ScheduleThread.sections)).mergeSort
    (Indexed.startsBefore SnapshotSection.startingTime)

/-- Every section has its place in a thread. -/
theorem ScheduleThread.getElem?_of_mem_interleaved {threads : List ScheduleThread}
    {placed : Indexed SnapshotSection} (member : placed ∈ interleaved threads) :
    ∃ thread, threads[placed.thread]? = some thread ∧
      thread.sections[placed.part]? = some placed.item := by
  obtain ⟨sections, isList, isPart⟩ := Indexed.getElem?_of_mem_all (List.mem_mergeSort.mp member)
  rw [List.getElem?_map] at isList
  obtain ⟨thread, isThread, rfl⟩ := Option.map_eq_some_iff.mp isList
  exact ⟨thread, isThread, isPart⟩

/-- A section of an interleaving is one of the thread it is indexed with. -/
theorem ScheduleThread.mem_interleaved {threads : List ScheduleThread}
    {placed : Indexed SnapshotSection} (member : placed ∈ interleaved threads) :
    ∃ thread, threads[placed.thread]? = some thread ∧ placed.item ∈ thread.sections := by
  obtain ⟨thread, isThread, isPart⟩ := getElem?_of_mem_interleaved member
  exact ⟨thread, isThread, List.mem_of_getElem? isPart⟩

/-- No two sections of an interleaving have the same place. -/
theorem ScheduleThread.pairwise_interleaved (threads : List ScheduleThread) :
    (interleaved threads).Pairwise fun first second =>
      (first.thread, first.part) ≠ (second.thread, second.part) := by
  have places := (Indexed.nodup_all (threads.map sections))
  rw [← (List.Perm.map _ (List.mergeSort_perm _ _)).nodup_iff] at places
  exact List.pairwise_map.mp places

/-- **The live scheduler** runs the sections in their order. -/
theorem LiveScheduler.orderedSections_eq (schedule : Schedule) :
    orderedSections schedule = (ScheduleThread.interleaved schedule.threads).map Indexed.item := by
  have placed : (schedule.threads.zipIdx.flatMap fun thread =>
      thread.1.sections.map fun part => (part.startingTime, thread.2, part)) =
      (Indexed.all (schedule.threads.map ScheduleThread.sections)).map fun indexed =>
        (indexed.item.startingTime, indexed.thread, indexed.item) := by
    unfold Indexed.all
    rw [List.map_flatMap, List.zipIdx_map, List.flatMap_map]
    refine List.flatMap_congr fun thread _ => ?_
    change _ = List.map _ (List.map _ thread.1.sections.zipIdx)
    rw [List.map_map]
    exact (congrArg _ (List.zipIdx_map_fst 0 thread.1.sections).symm).trans (List.map_map ..)
  unfold orderedSections ScheduleThread.interleaved
  dsimp only
  rw [placed, ← List.map_mergeSort, List.map_map]
  · rfl
  · exact fun _ _ _ _ => rfl

/-- The start of a path's first timeslot. -/
def SectionPath.start (path : SectionPath) : Time :=
  match path.steps.head? with
  | some step => step.timeslot.startingTime
  | none => 0

/-- A path in its place. -/
def ScheduledPath.ofIndexed (indexed : Indexed SectionPath) : ScheduledPath :=
  { start := indexed.item.start
    thread := indexed.thread
    part := indexed.part
    path := indexed.item }

/-- **The verification** lays the paths out in the order of their start. -/
theorem ScheduledPath.sorted_ofPathways (chosen : List Pathway) :
    (ofPathways chosen).mergeSort startsBefore =
      ((Indexed.all (chosen.map Pathway.sections)).mergeSort
        (Indexed.startsBefore SectionPath.start)).map ofIndexed := by
  have placed : ofPathways chosen = (Indexed.all (chosen.map Pathway.sections)).map ofIndexed := by
    unfold ofPathways Indexed.all
    rw [List.map_flatMap, List.zipIdx_map, List.flatMap_map]
    refine List.flatMap_congr fun pathway _ => ?_
    rw [List.map_map]
    rfl
  rw [placed, List.map_mergeSort]
  exact fun _ _ _ _ => rfl

end TimedKripke
