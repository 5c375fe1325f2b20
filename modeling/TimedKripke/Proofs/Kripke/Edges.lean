import Mathlib.Data.List.Nodup
import TimedKripke.Proofs.Constraint
import TimedKripke.Proofs.Kripke.Structure

/-! # The edges of a state

The edges of a state are kept in order, and no two of them make the same transition
(`KripkeEdge.Kept`). An edge that was added is *held* from then on: it stands there itself, or it
went into an edge that makes the same transition (`KripkeEdge.Held`). Adding an edge that is held
changes nothing (`KripkeEdge.insertInto_eq_self`).
-/

namespace TimedKripke

/-- Times are compared as the numbers they stand for. -/
theorem Time.compare_toNat (first second : Time) :
    compare first.toNat second.toNat = compare first second := by
  simp only [compare, compareOfLessAndEq, UInt64.lt_iff_toNat_lt, UInt64.toNat_inj]

namespace Constraint

/-- A constraint as a word: the place of its form and then its parts. -/
def word : Constraint → List Nat
  | .lessThan time => [0, time.toNat]
  | .lessThanEqual time => [1, time.toNat]
  | .equal time => [2, time.toNat]
  | .notEqual time => [3, time.toNat]
  | .greaterThan time => [4, time.toNat]
  | .greaterThanEqual time => [5, time.toNat]
  | .and left right => 6 :: (left.word ++ right.word)
  | .or left right => 7 :: (left.word ++ right.word)
  | .implies left right => 8 :: (left.word ++ right.word)
  | .not inner => 9 :: inner.word

/-- No word starts with another one, so words are compared part by part. -/
theorem compare_word_append (first : Constraint) : ∀ (second : Constraint) (rest more : List Nat),
    Ord.compare (first.word ++ rest) (second.word ++ more) =
      (compare first second).then (Ord.compare rest more) := by
  induction first with
  | lessThan time | lessThanEqual time | equal time | notEqual time | greaterThan time
  | greaterThanEqual time =>
      intro second rest more
      cases second <;> simp only [word, compare, rank, List.cons_append, List.nil_append,
        List.compare_cons_cons, Time.compare_toNat, Std.ReflOrd.compare_self,
        Ordering.eq_then] <;> rfl
  | and left right inLeft inRight | or left right inLeft inRight
  | implies left right inLeft inRight =>
      intro second rest more
      cases second <;> simp only [word, compare, rank, List.cons_append, List.nil_append,
        List.append_assoc, List.compare_cons_cons, inLeft, inRight, Ordering.then_assoc,
        Std.ReflOrd.compare_self, Ordering.eq_then] <;> rfl
  | not inner inInner =>
      intro second rest more
      cases second <;> simp only [word, compare, rank, List.cons_append, List.nil_append,
        List.append_assoc, List.compare_cons_cons, inInner, Std.ReflOrd.compare_self,
        Ordering.eq_then] <;> rfl

/-- Comparing two constraints is comparing their words, so the order on constraints inherits what
lists of numbers have: it is total and only equal constraints tie. -/
theorem compare_eq_compare_word (first second : Constraint) :
    compare first second = Ord.compare first.word second.word := by
  simpa using (compare_word_append first second [] []).symm

instance : Std.TransOrd Constraint where
  eq_swap {first second} := by
    change compare first second = (compare second first).swap
    rw [compare_eq_compare_word, compare_eq_compare_word]
    exact Std.OrientedOrd.eq_swap
  isLE_trans {first second third} := by
    change (compare first second).isLE → (compare second third).isLE →
      (compare first third).isLE
    rw [compare_eq_compare_word, compare_eq_compare_word, compare_eq_compare_word]
    exact Std.TransOrd.isLE_trans

end Constraint

namespace KripkeEdge

/-- The order on edges is lexicographic in their fields, the clock first and the target last. -/
theorem order_eq_compareLex : order = compareLex (compareOn clockName)
    (compareLex (compareOn constraint) (compareLex (compareOn resetClock)
      (compareLex (compareOn takeSnapshot) (compareLex (compareOn time) (compareOn target))))) := by
  have optional {α : Type} [Ord α] :
      (compareOptional : Option α → Option α → Ordering) = compare := by
    funext first second
    cases first <;> cases second <;> rfl
  funext first second
  simp only [order, optional]
  rfl

instance : Std.TransCmp order := by
  rw [order_eq_compareLex]
  infer_instance

/-- The edge may stand before the other one. -/
def precedes (first second : KripkeEdge) : Bool :=
  first.order second != .gt

/-- The test the sort uses is the order on edges read as a Boolean. -/
theorem precedes_eq_isLE (first second : KripkeEdge) :
    first.precedes second = (first.order second).isLE := by
  unfold precedes
  cases first.order second <;> rfl

/-- Sorting puts edges in order, since the order is total and transitive. -/
theorem pairwise_mergeSort (edges : List KripkeEdge) :
    (edges.mergeSort precedes).Pairwise fun first second => first.precedes second = true := by
  refine List.pairwise_mergeSort ?_ ?_ edges
  · intro first second third left right
    rw [precedes_eq_isLE] at left right ⊢
    exact Std.TransCmp.isLE_trans left right
  · intro first second
    have swapped : second.order first = (first.order second).swap := Std.OrientedCmp.eq_swap
    rw [precedes_eq_isLE, precedes_eq_isLE, swapped]
    cases first.order second <;> rfl

/-- The edge with the alternatives of another one. -/
def widened (wide edge : KripkeEdge) : KripkeEdge :=
  { wide with constraint := merge wide.constraint edge.constraint }

/-- A widened edge is open only if the edge or the other one is. -/
theorem admits_of_widened {wide edge : KripkeEdge} {value : Time}
    (admits : (wide.widened edge).admits value = true) :
    wide.admits value = true ∨ edge.admits value = true := by
  unfold widened at admits
  unfold KripkeEdge.admits at admits ⊢
  cases isWide : wide.constraint with
  | none => exact .inl rfl
  | some first =>
      cases isEdge : edge.constraint with
      | none => exact .inr rfl
      | some second =>
          dsimp only at admits ⊢
          rw [isWide, isEdge, merge] at admits
          by_cases trivially : (first.isTrivial || second.isTrivial) = true
          · rw [Bool.or_eq_true] at trivially
            exact trivially.imp (Constraint.satisfiedBy_of_isTrivial value)
              (Constraint.satisfiedBy_of_isTrivial value)
          · rw [if_neg trivially] at admits
            by_cases known : first.disjuncts.contains second = true
            · rw [if_pos known] at admits
              exact .inl admits
            · rw [if_neg known] at admits
              exact (Bool.or_eq_true _ _).mp admits

/-- A merge that finds a partner widens one edge of the same transition and leaves the others
where they are. -/
theorem mergeInto_eq_some {edge : KripkeEdge} {edges merged : List KripkeEdge}
    (found : mergeInto edge edges = some merged) : ∃ before wide after,
      edges = before ++ wide :: after ∧ wide.sameTransition edge = true ∧
      merged = before ++ wide.widened edge :: after := by
  induction edges generalizing merged with
  | nil => cases found
  | cons first rest shorter =>
      rw [mergeInto] at found
      split at found
      · next same =>
          cases found
          exact ⟨[], first, rest, rfl, same, rfl⟩
      · obtain ⟨restMerged, restFound, rfl⟩ := Option.map_eq_some_iff.mp found
        obtain ⟨before, wide, after, rfl, same, rfl⟩ := shorter restFound
        exact ⟨first :: before, wide, after, rfl, same, rfl⟩

/-- A merge without a partner means that no edge of the list has the transition of the new one. -/
theorem mergeInto_eq_none {edge : KripkeEdge} {edges : List KripkeEdge}
    (absent : mergeInto edge edges = none) : ∀ other ∈ edges,
      other.sameTransition edge = false := by
  induction edges with
  | nil => exact fun _ impossible => absurd impossible List.not_mem_nil
  | cons first rest shorter =>
      rw [mergeInto] at absent
      split at absent
      · cases absent
      · next differs =>
          intro other member
          rcases List.mem_cons.mp member with rfl | member
          · simpa using differs
          · exact shorter (Option.map_eq_none_iff.mp absent) other member

/-- What adding an edge may come to. -/
inductive Inserts (edge : KripkeEdge) : List KripkeEdge → List KripkeEdge → Prop
  | known {edges : List KripkeEdge} (member : edge ∈ edges) : Inserts edge edges edges
  /-- The edge goes into one that makes the same transition. -/
  | merged {before after : List KripkeEdge} {wide : KripkeEdge}
      (absent : edge ∉ before ++ wide :: after) (same : wide.sameTransition edge = true) :
      Inserts edge (before ++ wide :: after)
        ((before ++ wide.widened edge :: after).mergeSort precedes)
  | added {edges : List KripkeEdge} (fresh : ∀ other ∈ edges, other.sameTransition edge = false) :
      Inserts edge edges ((edges ++ [edge]).mergeSort precedes)

/-- Inserting an edge either widens the one edge of its transition or adds it next to edges of other
transitions, and sorts in both cases. -/
theorem inserts_insertInto (edge : KripkeEdge) (edges : List KripkeEdge) :
    Inserts edge edges (edge.insertInto edges) := by
  unfold insertInto
  split
  · next known => exact .known (List.contains_iff_mem.mp known)
  · next unknown =>
      cases found : mergeInto edge edges with
      | some merged =>
          obtain ⟨before, wide, after, rfl, same, rfl⟩ := mergeInto_eq_some found
          exact .merged (fun member => unknown (List.contains_iff_mem.mpr member)) same
      | none => exact .added (mergeInto_eq_none found)

/-- Adding an edge leads to its target and where edges led before. -/
theorem target_of_insertInto {edge wide : KripkeEdge} {edges : List KripkeEdge}
    (member : wide ∈ edge.insertInto edges) :
    wide.target = edge.target ∨ ∃ old ∈ edges, wide.target = old.target := by
  have inserts := inserts_insertInto edge edges
  generalize edge.insertInto edges = result at inserts member
  cases inserts with
  | known => exact .inr ⟨wide, member, rfl⟩
  | @merged before after old _ _ =>
      rcases List.mem_append.mp (List.mem_mergeSort.mp member) with isOld | member
      · exact .inr ⟨wide, List.mem_append_left _ isOld, rfl⟩
      · rcases List.mem_cons.mp member with rfl | isOld
        · exact .inr ⟨old, by simp, rfl⟩
        · exact .inr ⟨wide, by simp [isOld], rfl⟩
  | added =>
      rcases List.mem_append.mp (List.mem_mergeSort.mp member) with isOld | isNew
      · exact .inr ⟨wide, isOld, rfl⟩
      · exact .inl (congrArg KripkeEdge.target (List.mem_singleton.mp isNew))

/-- The edge without its constraint. -/
def transition (edge : KripkeEdge) : KripkeEdge :=
  { edge with constraint := none }

/-- Two edges are of one transition when they agree on everything but the constraint. -/
theorem sameTransition_iff_transition {first second : KripkeEdge} :
    first.sameTransition second = true ↔ first.transition = second.transition := by
  rw [sameTransition_iff, transition, transition, KripkeEdge.mk.injEq]
  simp only [true_and]

/-- A widened edge makes the transition that it made. -/
@[simp] theorem transition_widened (wide edge : KripkeEdge) :
    (wide.widened edge).transition = wide.transition :=
  rfl

/-- Edges in order, no two of which make the same transition. -/
structure Kept (edges : List KripkeEdge) : Prop where
  sorted : edges.Pairwise fun first second => first.precedes second = true
  distinct : (edges.map transition).Nodup

theorem kept_nil : Kept [] :=
  ⟨.nil, .nil⟩

/-- Sorting edges of distinct transitions gives a kept list. -/
theorem Kept.mergeSort {edges : List KripkeEdge} (distinct : (edges.map transition).Nodup) :
    Kept (edges.mergeSort precedes) :=
  ⟨pairwise_mergeSort edges,
    ((List.mergeSort_perm edges precedes).map transition).nodup_iff.mpr distinct⟩

/-- **Adding an edge keeps the edges in order and their transitions different.** -/
theorem Kept.insertInto {edges : List KripkeEdge} (kept : Kept edges) (edge : KripkeEdge) :
    Kept (edge.insertInto edges) := by
  have inserts := inserts_insertInto edge edges
  generalize edge.insertInto edges = result at inserts ⊢
  cases inserts with
  | known => exact kept
  | merged =>
      refine .mergeSort ?_
      have distinct := kept.distinct
      rw [List.map_append, List.map_cons] at distinct ⊢
      rwa [transition_widened]
  | added fresh =>
      refine .mergeSort ?_
      rw [List.map_append]
      refine List.nodup_append.mpr ⟨kept.distinct, List.nodup_singleton _, ?_⟩
      rintro shared isOld _ isNew rfl
      obtain ⟨other, member, rfl⟩ := List.mem_map.mp isOld
      have same := sameTransition_iff_transition.mpr (List.mem_singleton.mp isNew)
      rw [fresh other member] at same
      cases same

/-- The constraint of the edge is not a disjunction. -/
def Plain (edge : KripkeEdge) : Prop :=
  ∀ constraint, edge.constraint = some constraint → constraint.disjuncts = [constraint]

/-- The edge stands for another one. -/
inductive StandsFor (wide edge : KripkeEdge) : Prop
  | same (isEdge : wide = edge)
  | always (unconstrained : wide.constraint = none)
  /-- The other one's constraint is one of its alternatives. -/
  | alternative {constraint own : Constraint} (isWide : wide.constraint = some constraint)
      (isOwn : edge.constraint = some own) (nontrivial : constraint.isTrivial = false)
      (nontrivialOwn : own.isTrivial = false) (member : own ∈ constraint.disjuncts)

/-- Some edge makes the transition of the edge and stands for it. -/
def Held (edge : KripkeEdge) (edges : List KripkeEdge) : Prop :=
  ∃ wide ∈ edges, wide.transition = edge.transition ∧ wide.StandsFor edge

/-- What merging constraints may come to. -/
inductive Merges : Option Constraint → Option Constraint → Option Constraint → Prop
  | always (first second : Option Constraint) : Merges first second none
  /-- The constraint is an alternative already. -/
  | known {first second : Constraint} (nontrivial : first.isTrivial = false)
      (nontrivialOther : second.isTrivial = false) (member : second ∈ first.disjuncts) :
      Merges (some first) (some second) (some first)
  /-- The constraint becomes an alternative. -/
  | added {first second : Constraint} (nontrivial : first.isTrivial = false)
      (nontrivialOther : second.isTrivial = false) :
      Merges (some first) (some second) (some (.or first second))

/-- Merging two constraints admits the clock values that either of them admits. An absent constraint
admits them all, and so does the merge with it. -/
theorem merges_merge (first second : Option Constraint) :
    Merges first second (merge first second) := by
  cases first with
  | none => exact .always none second
  | some first =>
      cases second with
      | none => exact .always (some first) none
      | some second =>
          rw [merge]
          split
          · exact .always _ _
          · next nontrivial =>
              rw [Bool.or_eq_true, not_or, Bool.not_eq_true, Bool.not_eq_true] at nontrivial
              split
              · next known =>
                  exact .known nontrivial.1 nontrivial.2 (List.contains_iff_mem.mp known)
              · exact .added nontrivial.1 nontrivial.2

/-- The disjunction of two constraints that say something does not count as trivial, whatever it
admits. -/
theorem isTrivial_or {first second : Constraint} (nontrivial : first.isTrivial = false)
    (nontrivialOther : second.isTrivial = false) :
    (Constraint.or first second).isTrivial = false := by
  rw [Constraint.isTrivial, nontrivial, nontrivialOther]
  rfl

/-- An edge that was widened by a plain one stands for it: its constraint is among the alternatives.
-/
theorem standsFor_widened (wide : KripkeEdge) {edge : KripkeEdge} (plain : edge.Plain) :
    (wide.widened edge).StandsFor edge := by
  have merges := merges_merge wide.constraint edge.constraint
  generalize isMerged : merge wide.constraint edge.constraint = merged at merges
  generalize isOwn : edge.constraint = own at merges
  generalize wide.constraint = constraint at merges
  cases merges with
  | always => exact .always isMerged
  | known nontrivial nontrivialOwn member =>
      exact .alternative isMerged isOwn nontrivial nontrivialOwn member
  | @added first second nontrivial nontrivialOwn =>
      refine .alternative isMerged isOwn (isTrivial_or nontrivial nontrivialOwn) nontrivialOwn ?_
      rw [Constraint.disjuncts, plain second isOwn]
      exact List.mem_append_right _ (List.mem_singleton_self second)

/-- A wider edge stands for what the edge stood for. -/
theorem StandsFor.widened {wide edge : KripkeEdge} (stands : wide.StandsFor edge)
    (plain : edge.Plain) (other : KripkeEdge) : (wide.widened other).StandsFor edge := by
  have merges := merges_merge wide.constraint other.constraint
  generalize isMerged : merge wide.constraint other.constraint = merged at merges
  generalize isWide : wide.constraint = constraint at merges
  generalize other.constraint = added at merges
  cases merges with
  | always => exact .always isMerged
  | @known first second _ _ _ =>
      have unchanged : wide.widened other = wide := by
        rw [KripkeEdge.widened, isMerged, ← isWide]
      rwa [unchanged]
  | @added first second nontrivial nontrivialOther =>
      have nontrivialBoth := isTrivial_or nontrivial nontrivialOther
      cases stands with
      | same isEdge =>
          subst isEdge
          refine .alternative isMerged isWide nontrivialBoth nontrivial ?_
          rw [Constraint.disjuncts, plain first isWide]
          exact List.mem_append_left _ (List.mem_singleton_self first)
      | always unconstrained =>
          rw [unconstrained] at isWide
          cases isWide
      | alternative isConstraint isOwn _ nontrivialOwn member =>
          cases isConstraint.symm.trans isWide
          exact .alternative isMerged isOwn nontrivialBoth nontrivialOwn
            (List.mem_append_left _ member)

/-- A plain edge that is added is held afterwards. -/
theorem held_insertInto {edge : KripkeEdge} (plain : edge.Plain) (edges : List KripkeEdge) :
    edge.Held (edge.insertInto edges) := by
  have inserts := inserts_insertInto edge edges
  generalize edge.insertInto edges = result at inserts ⊢
  cases inserts with
  | known member => exact ⟨edge, member, rfl, .same rfl⟩
  | @merged before after wide _ same =>
      refine ⟨wide.widened edge, List.mem_mergeSort.mpr ?_, ?_, standsFor_widened wide plain⟩
      · exact List.mem_append_right _ List.mem_cons_self
      · exact sameTransition_iff_transition.mp same
  | added =>
      refine ⟨edge, List.mem_mergeSort.mpr ?_, rfl, .same rfl⟩
      exact List.mem_append_right _ (List.mem_singleton_self edge)

/-- **Edges that are held stay held**, whatever edge is added: widening only appends alternatives.
-/
theorem Held.insertInto {edge : KripkeEdge} {edges : List KripkeEdge} (held : edge.Held edges)
    (plain : edge.Plain) (other : KripkeEdge) : edge.Held (other.insertInto edges) := by
  obtain ⟨wide, member, same, stands⟩ := held
  have inserts := inserts_insertInto other edges
  generalize other.insertInto edges = result at inserts ⊢
  cases inserts with
  | known => exact ⟨wide, member, same, stands⟩
  | @merged before after found _ _ =>
      simp only [List.mem_append, List.mem_cons] at member
      rcases member with member | rfl | member
      · exact ⟨wide, List.mem_mergeSort.mpr (by simp [member]), same, stands⟩
      · exact ⟨wide.widened other, List.mem_mergeSort.mpr (by simp), same,
          stands.widened plain other⟩
      · exact ⟨wide, List.mem_mergeSort.mpr (by simp [member]), same, stands⟩
  | added =>
      exact ⟨wide, List.mem_mergeSort.mpr (List.mem_append_left _ member), same, stands⟩

/-- An edge that stands for another one is not widened by it. -/
theorem StandsFor.widened_eq {wide edge : KripkeEdge} (stands : wide.StandsFor edge)
    (differ : wide ≠ edge) : wide.widened edge = wide := by
  rw [KripkeEdge.widened]
  cases stands with
  | same isEdge => exact absurd isEdge differ
  | always unconstrained =>
      rw [unconstrained]
      exact congrArg (fun constraint => { wide with constraint }) unconstrained.symm
  | alternative isWide isOwn nontrivial nontrivialOwn member =>
      have known : merge wide.constraint edge.constraint = wide.constraint := by
        rw [isWide, isOwn, merge, nontrivial, nontrivialOwn, if_neg (by decide),
          if_pos (List.contains_iff_mem.mpr member)]
      rw [known]

/-- **Adding an edge that is held changes nothing**: the edge that holds it is not widened, and the
edges are sorted already. -/
theorem Held.insertInto_eq {edge : KripkeEdge} {edges : List KripkeEdge} (held : edge.Held edges)
    (kept : Kept edges) : edge.insertInto edges = edges := by
  obtain ⟨wide, member, same, stands⟩ := held
  have inserts := inserts_insertInto edge edges
  generalize edge.insertInto edges = result at inserts ⊢
  cases inserts with
  | known => rfl
  | @merged before after found absent isSame =>
      have isWide : found = wide := List.inj_on_of_nodup_map kept.distinct (by simp) member
        ((sameTransition_iff_transition.mp isSame).trans same.symm)
      subst isWide
      have differ : found ≠ edge := fun isEdge => absent (isEdge ▸ member)
      rw [stands.widened_eq differ]
      exact List.mergeSort_of_pairwise kept.sorted
  | added fresh =>
      have differs := fresh wide member
      rw [sameTransition_iff_transition.mpr same] at differs
      cases differs

end KripkeEdge

end TimedKripke
