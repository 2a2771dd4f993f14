/-
  What happens to outputs.

  A walk with a log says when an output is opened and handed out, when a level is opened and closed, and
  when a lazy field is left to wait and is written again (`Event`).  `Logged` is a step with the events that
  it logs, in the order in which they happen; what it does is what the step without a log does.  The
  definitions here are those of the walk, one for one, with the events put in; `run_*` say that nothing else
  has changed.
-/
import Stencil.Proofs.Walk.Parts
import Stencil.Walk.Pull

set_option autoImplicit false

namespace Stencil

/-! ## Events -/

/-- What happens to an output. -/
inductive Event where
  /-- A sink is opened, as it is then. -/
  | opened (s : Sink)
  /-- A level of the open sink is opened. -/
  | pushed
  /-- The innermost level of the open sink is closed, on which these fields wait. -/
  | popped (level : List Waiting)
  /-- A lazy field is left to wait on the innermost level. -/
  | queued (w : Waiting)
  /-- A field that waits on the innermost level is taken off it and written again. -/
  | replayed (w : Waiting)
  /-- The open sink is handed out, as it is then. -/
  | yielded (s : Sink)

/-- A step with the events that it logs. -/
structure Logged (σ α : Type) where
  /-- The step. -/
  run : Action σ α
  /-- What it logs. -/
  log : σ → List Event

namespace Logged

variable {σ α β : Type}

/-- A step that logs nothing. -/
def lift (x : Action σ α) : Logged σ α := ⟨x, fun _ => []⟩

/-- Logs events and does nothing else. -/
def emit (es : List Event) : Logged σ Unit := ⟨pure (), fun _ => es⟩

instance : Monad (Logged σ) where
  pure a := lift (pure a)
  bind x f :=
    { run := x.run >>= fun a => (f a).run
      log := fun s => x.log s ++
        match x.run s with
        | .ok a s => (f a).log s
        | .error _ _ => [] }

instance : MonadLift (Action σ) (Logged σ) := ⟨lift⟩

/-- Whether a step succeeds, and with what log. -/
def Ok (x : Logged σ α) (s : σ) (a : α) (s' : σ) (es : List Event) : Prop :=
  x.run s = .ok a s' ∧ x.log s = es

variable {x : Logged σ α} {f : α → Logged σ β} {s s' : σ} {a : α} {b : β} {es : List Event}

theorem run_bind : (x >>= f).run = x.run >>= fun a => (f a).run := rfl

theorem bind_ok : (x >>= f).Ok s b s' es
    ↔ ∃ a s₁ es₁ es₂, x.Ok s a s₁ es₁ ∧ (f a).Ok s₁ b s' es₂ ∧ es = es₁ ++ es₂ := by
  unfold Ok
  rw [run_bind, Action.bind_eq_ok]
  show _ ∧ x.log s ++ _ = es ↔ _
  constructor
  · rintro ⟨⟨a, s₁, hx, hf⟩, he⟩
    simp only [hx] at he
    exact ⟨a, s₁, x.log s, (f a).log s₁, ⟨hx, rfl⟩, ⟨hf, rfl⟩, he.symm⟩
  · rintro ⟨a, s₁, es₁, es₂, ⟨hx, rfl⟩, ⟨hf, rfl⟩, rfl⟩
    refine ⟨⟨a, s₁, hx, hf⟩, ?_⟩
    simp only [hx]

theorem lift_ok {x : Action σ α} : (lift x).Ok s a s' es ↔ x s = .ok a s' ∧ es = [] :=
  ⟨fun h => ⟨h.1, h.2.symm⟩, fun h => ⟨h.1, h.2.symm⟩⟩

theorem pure_ok {a' : α} : (pure a : Logged σ α).Ok s a' s' es ↔ a' = a ∧ s' = s ∧ es = [] := by
  show (lift (pure a)).Ok s a' s' es ↔ _
  rw [lift_ok, Action.pure_eq_ok]
  constructor
  · rintro ⟨⟨rfl, rfl⟩, rfl⟩
    exact ⟨rfl, rfl, rfl⟩
  · rintro ⟨rfl, rfl, rfl⟩
    exact ⟨⟨rfl, rfl⟩, rfl⟩

theorem emit_ok {u : Unit} {es' : List Event} :
    (emit es : Logged σ Unit).Ok s u s' es' ↔ s' = s ∧ es' = es := by
  constructor
  · rintro ⟨hr, rfl⟩
    exact ⟨(Action.pure_eq_ok.mp hr).2.symm, rfl⟩
  · rintro ⟨rfl, rfl⟩
    exact ⟨rfl, rfl⟩

theorem get_bind_ok {f : σ → Logged σ β} :
    (get >>= f).Ok s b s' es ↔ (f s).Ok s b s' es := Iff.rfl

theorem set_bind_ok {t : σ} {f : PUnit → Logged σ β} :
    (set t >>= f).Ok s b s' es ↔ (f ⟨⟩).Ok t b s' es := Iff.rfl

theorem modify_bind_ok {g : σ → σ} {f : PUnit → Logged σ β} :
    (modify g >>= f).Ok s b s' es ↔ (f ⟨⟩).Ok (g s) b s' es := Iff.rfl

theorem modify_ok {g : σ → σ} {u : PUnit} :
    (modify g : Logged σ PUnit).Ok s u s' es ↔ s' = g s ∧ es = [] := by
  show (lift (modify g)).Ok s u s' es ↔ _
  rw [lift_ok, Action.modify_eq_ok]

theorem lift_bind_ok {x : Action σ α} {f : α → Logged σ β} :
    ((liftM x : Logged σ α) >>= f).Ok s b s' es ↔ ∃ a s₁, x s = .ok a s₁ ∧ (f a).Ok s₁ b s' es := by
  rw [bind_ok]
  constructor
  · rintro ⟨a, s₁, es₁, es₂, hx, hf, rfl⟩
    obtain ⟨hok, rfl⟩ := lift_ok.mp hx
    exact ⟨a, s₁, hok, hf⟩
  · rintro ⟨a, s₁, hx, hf⟩
    exact ⟨a, s₁, [], es, lift_ok.mpr ⟨hx, rfl⟩, hf, rfl⟩

theorem emit_bind_ok {f : Unit → Logged σ β} {es' : List Event} :
    (emit es >>= f).Ok s b s' es' ↔ ∃ es₂, (f ()).Ok s b s' es₂ ∧ es' = es ++ es₂ := by
  rw [bind_ok]
  constructor
  · rintro ⟨u, s₁, es₁, es₂, hx, hf, rfl⟩
    obtain ⟨rfl, rfl⟩ := emit_ok.mp hx
    exact ⟨es₂, hf, rfl⟩
  · rintro ⟨es₂, hf, rfl⟩
    exact ⟨(), s, es, es₂, emit_ok.mpr ⟨rfl, rfl⟩, hf, rfl⟩

theorem ite_bind {c : Prop} [Decidable c] {x y : Logged σ α} {f : α → Logged σ β} :
    (if c then x >>= f else y >>= f) = (if c then x else y) >>= f := by
  split <;> rfl

/-! ## Fields -/

/-- `Job.setData` with its log. -/
def setData (o : Options) (files : Files) (item : NodeId) : Logged Job Unit := do
  let isLazy := (← get).space.tree.attr? item "eval" == some "lazy"
  let position := (← get).sink.stream.position
  Job.modifySink Sink.flush
  Job.write o files item none
  if isLazy then
    let t := (← get).space.tree
    let offset := if (t.attr? item "offset").isSome then none else some position
    match (← get).sink.levels with
    | [] => (Action.fail (.lazyOutsideChunk (t.describe item)) : Action Job Unit)
    | level :: levels =>
      Job.modifySink fun s => { s with levels := (⟨item, offset⟩ :: level) :: levels }
      emit [.queued ⟨item, offset⟩]

/-- `Job.replay` with its log. -/
def replay (o : Options) (files : Files) : List Waiting → Logged Job Unit
  | [] => pure ()
  | w :: ws => do
    Job.modifySink Job.dropWaiting
    Job.write o files w.item w.offset
    emit [.replayed w]
    replay o files ws

/-- `Job.writeChunk` with its log. -/
def writeChunk (o : Options) (files : Files) : Logged Job Unit := do
  replay o files ((← get).sink.levels.headD [])

/-- `Job.closeLevels` with its log. -/
def closeLevels (o : Options) (files : Files) : Nat → Logged Job Unit
  | 0 => pure ()
  | n + 1 => do
    writeChunk o files
    let level := (← get).sink.levels.headD []
    Job.modifySink Sink.pop
    emit [.popped level]
    closeLevels o files n

/-- `Job.closeAll` with its log. -/
def closeAll (o : Options) (files : Files) : Logged Job Unit := do
  closeLevels o files (← get).sink.depth

theorem run_setData (o : Options) (files : Files) (item : NodeId) :
    (setData o files item).run = Job.setData o files item := by
  refine Action.bind_ext fun j => Action.bind_ext fun j' => Action.bind_ext fun _ =>
    Action.bind_ext fun _ => ?_
  dsimp only
  split
  · refine Action.bind_ext fun j₁ => Action.bind_ext fun j₂ => ?_
    obtain ⟨space, name, stream, levels, target⟩ := j₂
    cases levels <;> rfl
  · rfl

theorem run_replay (o : Options) (files : Files) (ws : List Waiting) :
    (replay o files ws).run = Job.replay o files ws := by
  induction ws with
  | nil => rfl
  | cons w ws ih =>
    unfold replay Job.replay
    rw [← ih]
    rfl

theorem run_writeChunk (o : Options) (files : Files) :
    (writeChunk o files).run = Job.writeChunk o files := by
  unfold writeChunk Job.writeChunk
  simp only [← run_replay]
  rfl

theorem run_closeLevels (o : Options) (files : Files) (n : Nat) :
    (closeLevels o files n).run = Job.closeLevels o files n := by
  induction n with
  | zero => rfl
  | succ n ih =>
    unfold closeLevels Job.closeLevels
    rw [← ih, ← run_writeChunk]
    rfl

theorem run_closeAll (o : Options) (files : Files) :
    (closeAll o files).run = Job.closeAll o files := by
  unfold closeAll Job.closeAll
  simp only [← run_closeLevels]
  rfl

/-! ## Levels -/

/-- `Action.locating` with its log. -/
def locating (site : σ → String) (x : Logged σ α) : Logged σ α := ⟨.locating site x.run, x.log⟩

/-- `Walk.onSink` with its log. -/
def onSink (x : Files → Logged Job Unit) : Logged Walk Unit where
  run := Walk.onSink fun files => (x files).run
  log := fun w =>
    match w.sink with
    | none => []
    | some s => (x w.files).log ⟨w.space, s⟩

/-- `Walk.pushLevel` with its log. -/
def pushLevel : Logged Walk Unit := do
  onSink fun _ => do
    Job.modifySink Sink.push
    emit [.pushed]
  modify fun w => { w with depth := w.depth + 1 }

/-- `Walk.popLevel` with its log. -/
def popLevel : Logged Walk Unit := do
  onSink fun _ => do
    let level := (← get).sink.levels.headD []
    Job.modifySink Sink.pop
    emit [.popped level]
  modify fun w => { w with depth := w.depth - 1 }

/-- `Walk.completeLevel` with its log. -/
def completeLevel (o : Options) : Logged Walk Unit := onSink fun files => writeChunk o files

/-- `Walk.enter` with its log. -/
def enter (o : Options) (e : Walk.Entry) : Logged Walk Unit := do
  let load := (← get).loader
  Walk.onDesk (Import.resolve o load e.document)
  let root := e.document.root
  modify fun w =>
    let t := w.space.tree
    let (nextLoop, tree) := Walk.numberLoops w.nextLoop t (t.descendants root)
    { w with nextLoop, space := { w.space with tree } }
  pushLevel
  modify fun w =>
    let scan : List Position :=
      match w.space.tree.firstChild? root with
      | some first => [⟨"", first⟩]
      | none => []
    { w with frames :=
      ⟨e.document.path, e.source, e.seesSecondary, scan, [], none,
        if e.owned then some root else none⟩ :: w.frames }

/-- `Walk.leave` with its log. -/
def leave (o : Options) : Logged Walk Unit := do
  completeLevel o
  popLevel
  let w ← get
  match w.frames with
  | [] => pure ()
  | f :: more =>
    set { w with frames := more }
    match f.owned with
    | some root => Walk.modifyTree fun t => t.release root
    | none => pure ()

/-- `Walk.dropLoop` with its log. -/
def dropLoop (outer : List Loop) : Logged Walk Unit := do
  Walk.modifyFrame fun f => { f with loops := outer }
  popLevel

/-- `Walk.askLoop` with its log. -/
def askLoop (stray : Action Walk Unit) (parent : NodeId) (outward : Logged Walk Unit) :
    Logged Walk Unit := do
  match (← get).frames with
  | [] => pure ()
  | f :: _ =>
    match f.loops with
    | [] => stray
    | l :: outer =>
      let (more, l) ← Walk.turn f l
      if more then Walk.modifyFrame fun f => { f with loops := l :: outer }
      else
        dropLoop outer
        if Walk.cascades (← get).space.tree outer parent then outward

/-- `Walk.closeLoops` with its log. -/
def closeLoops (o : Options) : List NodeId → Logged Walk Unit
  | [] => pure ()
  | parent :: parents => do
    let t := (← get).space.tree
    if t.name parent == "repeat" then
      if (t.computed parent).seq = some 0 then pushLevel else completeLevel o
      askLoop (Walk.strayLoop parent) parent (closeLoops o parents)

theorem run_pushLevel : pushLevel.run = Walk.pushLevel := rfl

theorem run_popLevel : popLevel.run = Walk.popLevel := rfl

theorem run_completeLevel (o : Options) : (completeLevel o).run = Walk.completeLevel o := by
  unfold completeLevel Walk.completeLevel
  simp only [← run_writeChunk]
  rfl

theorem run_enter (o : Options) (e : Walk.Entry) : (enter o e).run = Walk.enter o e := rfl

theorem run_leave (o : Options) : (leave o).run = Walk.leave o := by
  unfold Walk.leave
  rw [← run_completeLevel]
  refine Action.bind_ext fun _ => Action.bind_ext fun _ => Action.bind_ext fun w => ?_
  dsimp only
  cases w.frames with
  | nil =>
    dsimp only
    rfl
  | cons f more =>
    dsimp only
    refine Action.bind_ext fun _ => ?_
    cases f.owned <;> rfl

theorem run_askLoop (stray : Action Walk Unit) (parent : NodeId) (outward : Logged Walk Unit) :
    (askLoop stray parent outward).run = Walk.askLoop stray parent outward.run := by
  refine Action.bind_ext fun w => ?_
  dsimp only
  cases w.frames with
  | nil =>
    dsimp only
    rfl
  | cons f more =>
    dsimp only
    cases f.loops with
    | nil =>
      dsimp only
      rfl
    | cons l outer =>
      dsimp only
      refine Action.bind_ext fun said => ?_
      dsimp only
      split
      · rfl
      · refine Action.bind_ext fun _ => Action.bind_ext fun w' => ?_
        dsimp only
        split <;> rfl

theorem run_closeLoops (o : Options) (parents : List NodeId) :
    (closeLoops o parents).run = Walk.closeLoops o parents := by
  rw [Walk.closeLoops_eq]
  induction parents with
  | nil => rfl
  | cons parent parents ih =>
    unfold closeLoops Walk.closeLoopsOr
    rw [← run_completeLevel, ← ih]
    refine Action.bind_ext fun w => ?_
    dsimp only
    split
    · split
      · exact Action.bind_ext fun _ => run_askLoop ..
      · exact Action.bind_ext fun _ => run_askLoop ..
    · rfl

/-! ## Outputs -/

/-- `Walk.openSink` with its log. -/
def openSink (o : Options) (f : Frame) (node : NodeId) : Logged Walk Unit := do
  let kind := ((← get).space.tree.attr? node "type").getD ""
  let name ← Walk.render o f node
  let s ← Action.locating (fun w => w.space.tree.describe node) (Walk.newSink o kind name)
  emit (.opened s :: List.replicate (← get).depth .pushed)
  modify fun w => { w with sink := some (Nat.repeat Sink.push w.depth s) }

/-- `Walk.takeSink` with its log. -/
def takeSink (o : Options) (s : Sink) : Logged Walk Sink where
  run := Walk.takeSink o s
  log := fun w => (closeAll o w.files).log ⟨w.space, s⟩

/-- `Walk.visitWriter` with its log. -/
def visitWriter (o : Options) (f : Frame) (node : NodeId) : Logged Walk Walk.Visit := do
  match (← get).sink with
  | none =>
    openSink o f node
    return .done
  | some s =>
    let s ← takeSink o s
    modify fun w => { w with rotation := some node }
    emit [.yielded s]
    return .yield s

/-- `Walk.visit` with its log. -/
def visit (o : Options) (f : Frame) (key : String) (node : NodeId) : Logged Walk Walk.Visit := do
  let t := (← get).space.tree
  match ← (Action.ofExcept (Walk.tagOf t node) : Action Walk Tag) with
  | .item =>
    Walk.fillItem f key node
    onSink fun files => setData o files node
    return .done
  | .items =>
    let (t, scan) ←
      (Action.ofExcept (Walk.descend t f.scan key node) : Action Walk (Tree × List Position))
    Walk.modifyTree fun _ => t
    Walk.modifyFrame fun f => { f with scan }
    return .done
  | .loop =>
    Walk.startLoop f key node
    return .done
  | .document => Walk.visitImport o f node
  | .writer => visitWriter o f node
  | .nop => return .done

/-! ## Rounds -/

/-- `Walk.rotate` with its log. -/
def rotate (o : Options) : Logged Walk Unit := do
  let w ← get
  match w.rotation, w.frames with
  | some node, f :: _ =>
    set { w with rotation := none }
    openSink o f node
  | _, _ => pure ()

/-- `Walk.finish` with its log. -/
def finish : Logged Walk Walk.Progress := do
  let w ← get
  match w.sink with
  | none => return .finished
  | some s =>
    set (Walk.keep s { w with sink := none })
    emit [.yielded s.flush]
    return .yield s.flush

/-- `Walk.advance` with its log. -/
def advance (o : Options) (f : Frame) (r : Run) (node : NodeId) : Logged Walk Walk.Progress := do
  let v ← locating (fun w => w.space.tree.describe node) (visit o f r.key node)
  Walk.resume r node
  match v with
  | .done => return .goOn
  | .yield s => return .yield s
  | .enter e =>
    enter o e
    return .goOn

/-- `Walk.round` with its log. -/
def round (o : Options) : Logged Walk Walk.Progress := do
  rotate o
  let w ← get
  match w.frames with
  | [] => finish
  | f :: more =>
    match Walk.takeRun f with
    | none =>
      leave o
      return .goOn
    | some (r, f) =>
      set { w with frames := f :: more }
      match r.next with
      | some node => advance o f r node
      | none =>
        closeLoops o (w.space.tree.ancestors r.first)
        return .goOn

/-- `Walk.rounds` with its log. -/
def rounds (o : Options) : Nat → Logged Walk (Option Sink)
  | 0 => (.fail .exhausted : Action Walk (Option Sink))
  | n + 1 => do
    match ← round o with
    | .goOn => rounds o n
    | .yield s => return some s
    | .finished => return none

/-- `Walk.start` with its log. -/
def start (o : Options) (document : Import.Placed) : Logged Walk Unit := do
  modify fun w => { w with phase := .running, main := w.main.map fun t => t.read.2 }
  enter o ⟨document, .main, true, false⟩

/-- The rounds of `Walk.pull` with their log. -/
def pull (o : Options) (fuel : Nat) (phase : Phase) : Logged Walk (Option Sink) :=
  match phase with
  | .ready document => do start o document; rounds o fuel
  | .running => rounds o fuel
  | .done => pure none

/-- What `Walk.pullAll` logs. -/
def pullAllLog (o : Options) (fuel : Nat) : Nat → Walk → List Event
  | 0, _ => []
  | n + 1, w => (pull o fuel w.phase).log w ++
    match Walk.pull o fuel w with
    | (.ok (some _), w) => pullAllLog o fuel n w
    | _ => []

/-- What a walk logs from the beginning: the sink that is open then has been opened. -/
def walkLog (o : Options) (fuel n : Nat) (s : Walk.Setup) : List Event :=
  (s.sink.map Event.opened).toList ++ pullAllLog o fuel n (Walk.begin s)

theorem run_openSink (o : Options) (f : Frame) (node : NodeId) :
    (openSink o f node).run = Walk.openSink o f node := rfl

theorem run_visitWriter (o : Options) (f : Frame) (node : NodeId) :
    (visitWriter o f node).run = Walk.visitWriter o f node := by
  refine Action.bind_ext fun w => ?_
  dsimp only
  cases w.sink <;> rfl

theorem run_visit (o : Options) (f : Frame) (key : String) (node : NodeId) :
    (visit o f key node).run = Walk.visit o f key node := by
  refine Action.bind_ext fun w => Action.bind_ext fun tag => ?_
  cases tag with
  | item =>
    dsimp only
    simp only [← run_setData]
    rfl
  | items => rfl
  | loop => rfl
  | document => rfl
  | writer => exact run_visitWriter ..
  | nop => rfl

theorem run_rotate (o : Options) : (rotate o).run = Walk.rotate o := by
  refine Action.bind_ext fun w => ?_
  dsimp only
  cases w.rotation with
  | none => rfl
  | some n => cases w.frames <;> rfl

theorem run_finish : finish.run = Walk.finish := by
  refine Action.bind_ext fun w => ?_
  dsimp only
  cases w.sink <;> rfl

theorem run_advance (o : Options) (f : Frame) (r : Run) (node : NodeId) :
    (advance o f r node).run = Walk.advance o f r node := by
  unfold Walk.advance
  rw [← run_visit]
  refine Action.bind_ext fun v => Action.bind_ext fun _ => ?_
  cases v <;> rfl

theorem run_round (o : Options) : (round o).run = Walk.round o := by
  unfold Walk.round
  rw [← run_rotate]
  refine Action.bind_ext fun _ => Action.bind_ext fun w => ?_
  dsimp only
  cases w.frames with
  | nil => exact run_finish
  | cons f more =>
    dsimp only
    cases Walk.takeRun f with
    | none =>
      dsimp only
      rw [← run_leave]
      rfl
    | some taken =>
      obtain ⟨r, g⟩ := taken
      refine Action.bind_ext fun _ => ?_
      dsimp only
      cases r.next with
      | some n => exact run_advance ..
      | none =>
        dsimp only
        rw [← run_closeLoops]
        rfl

theorem run_rounds (o : Options) (n : Nat) : (rounds o n).run = Walk.rounds o n := by
  induction n with
  | zero => rfl
  | succ n ih =>
    unfold Walk.rounds
    rw [← run_round]
    refine Action.bind_ext fun p => ?_
    cases p with
    | goOn => exact ih
    | yield s => rfl
    | finished => rfl

theorem run_start (o : Options) (document : Import.Placed) :
    (start o document).run = Walk.start o document := rfl

theorem run_pull (o : Options) (fuel : Nat) (w : Walk) :
    Walk.pull o fuel w =
      match Action.outcome (pull o fuel w.phase).run w with
      | (.ok (some s), w) => (.ok (some s), w)
      | (r, w) => (r, { w with phase := .done }) := by
  unfold Walk.pull pull
  rw [← run_rounds]
  cases w.phase <;> rfl

end Logged

end Stencil
