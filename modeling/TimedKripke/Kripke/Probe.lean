import TimedKripke.Kripke.Structure
import TimedKripke.Kripke.View

/-! # Probes

A probe stands between a verification and its view or its store. It passes everything
on, and fails or raises a flag at a chosen operation, so that every way in which a
verification can end early can be brought about.
-/

namespace TimedKripke

/-- A view that records, may also write lines, and fails or raises a flag where it is
told to. -/
structure ProbeView where
  /-- What was received. -/
  recording : RecordingView := {}
  /-- The lines that are written, if any. -/
  lines : Option LinesView := none
  /-- Every reset fails. -/
  failReset : Bool := false
  /-- Every finish fails. -/
  failFinish : Bool := false
  /-- The commit that fails, counted from one. -/
  failCommit : Option Nat := none
  /-- The commit that raises the flag, counted from one. -/
  cancelOnCommit : Option Nat := none
  commits : Nat := 0
  cancelled : Bool := false

namespace ProbeView

/-- Passes on to the lines after the recording. -/
def forward (view : ProbeView) (recording : RecordingView)
    (write : LinesView → Except ViewError Unit × LinesView) :
    Except ViewError Unit × ProbeView :=
  match view.lines with
  | none => (.ok (), { view with recording })
  | some lines =>
      let written := write lines
      (written.1, { view with recording, lines := some written.2 })

/-- Counts a commit, raises the flag if it is due, and fails or passes on. -/
def commit (view : ProbeView) (state : KripkeState) : Except ViewError Unit × ProbeView :=
  let commits := view.commits + 1
  let counted := { view with
    commits
    cancelled := view.cancelled || view.cancelOnCommit == some commits }
  if counted.failCommit == some commits then (.error (.sink "injected commit"), counted)
  else counted.forward (counted.recording.commit state) (KripkeView.commit · state)

instance : KripkeView ProbeView where
  reset view usingClocks :=
    if view.failReset then (.error (.sink "injected reset"), view)
    else view.forward (view.recording.reset usingClocks) (KripkeView.reset · usingClocks)
  commit := commit
  finish view :=
    if view.failFinish then (.error (.sink "injected finish"), view)
    else view.forward view.recording.finish KripkeView.finish

end ProbeView

/-- A store that fails where it is told to. -/
structure ProbeStore (σ : Type) where
  /-- The store that is passed on to. -/
  store : σ
  /-- The addition of a state that fails, counted from one. -/
  failAdd : Option Nat := none
  /-- The addition of an edge that fails, counted from one. -/
  failEdge : Option Nat := none
  /-- Every flush fails. -/
  failFlush : Bool := false
  adds : Nat := 0
  edges : Nat := 0

namespace ProbeStore

variable {σ : Type} [KripkeStore σ]

/-- Fails under a name or passes on to the store. -/
def forward {α : Type} (probe : ProbeStore σ) (fails : Bool) (name : String)
    (operation : σ → Except StoreError α × σ) : Except StoreError α × ProbeStore σ :=
  if fails then (.error (.corrupted name), probe)
  else
    let performed := operation probe.store
    (performed.1, { probe with store := performed.2 })

instance : KripkeStore (ProbeStore σ) where
  add probe properties isInitial :=
    let counted := { probe with adds := probe.adds + 1 }
    counted.forward (counted.failAdd == some counted.adds) "injected add"
      (KripkeStore.add · properties isInitial)
  addEdge probe edge source :=
    let counted := { probe with edges := probe.edges + 1 }
    counted.forward (counted.failEdge == some counted.edges) "injected edge"
      (KripkeStore.addEdge · edge source)
  state probe := KripkeStore.state probe.store
  id? probe := KripkeStore.id? probe.store
  size probe := KripkeStore.size probe.store
  states probe := KripkeStore.states probe.store
  flush probe := probe.forward probe.failFlush "injected flush" KripkeStore.flush

end ProbeStore

end TimedKripke
