import Fibers.Effect.Nursery
import Fibers.Effect.Retry
import Fibers.Resource
import Fibers.Script.Program

/-!
# Effects of scripts

What a program stands for: an effect whose failures are plain values.  Building it
is an action, since the expressions in it are evaluated on the way; a body is built
again whenever its name gets a value.

A handler can be asked to handle failures of a wrapper type instead.  The wrapper
shows only where failures have to be told from those of another type.

## Main definitions

* `plain`, `wrapper` — the types of failures.
* `Answer.outcome`, `Callback.run` — completing a wait.
* `Program.build`, `Holding.build` — the effects and resources.
-/

namespace Fibers.Script

/-- The type of plain failures. -/
def plain : ErrorType := ⟨"V"⟩

/-- The type of wrapped failures. -/
def wrapper : ErrorType := ⟨"Alt"⟩

/-- The effects that programs stand for. -/
abbrev Work := Effect plain

/-! ### Waiting -/

/-- The outcome that completes a wait. -/
def Answer.outcome (scope : Scope) : Answer → Action Outcome
  | .succeed v => do
    let v ← v.eval scope
    pure (.done v)
  | .fail v => do
    let v ← v.eval scope
    pure (Exit.tag plain (.fail v))
  | .done x => do
    let x ← x.eval scope
    pure (x.tag plain)

/-- Completes a wait; says whether the outcome was accepted. -/
def Answer.give (a : Answer) (scope : Scope) (waiter : SuspensionId) : Action Bool := do
  let outcome ← a.outcome scope
  Action.complete waiter outcome

/-- Completes the wait that was kept under a name; says whether the outcome was
accepted. -/
def Answer.resume (a : Answer) (scope : Scope) (slot : String) : Action Bool := do
  let outcome ← a.outcome scope
  let store ← Action.observe
  match store.handles.lookup slot with
  | some waiter => Action.complete waiter outcome
  | none => pure false

/-- What a wait does while it is registered. -/
def Callback.run (scope : Scope) (waiter : SuspensionId) : Callback → Action Unit
  | .answer a => do
    let won ← a.give scope waiter
    Action.log (.answered won)
  | .store slot => Action.keep slot waiter
  | .panic message => Action.fail message

/-- Registers a wait; what it leaves for the case that it is given up is to log what
`cancel` says to that. -/
def register (scope : Scope) (acts : List Callback) (cancel : Option Expr)
    (waiter : SuspensionId) : Action (Action Unit) := do
  acts.forM (Callback.run scope waiter)
  pure <|
    match cancel with
    | none => pure ()
    | some e => do
      let v ← e.eval scope
      Action.log (.cancelled v)

/-! ### Parts that are not programs -/

/-- Counts on from a number, one link at a time. -/
def countOn : Nat → Int → Work
  | 0, m => .succeed (.int m)
  | n + 1, m => (Effect.succeed (.int (m + 1)) : Work).chain fun _ => pure (countOn n (m + 1))

/-- One more than an integer. -/
def increment (v : Value) : Action Value := do
  let m ← integer v
  pure (.int (wrap (m + 1)))

/-- A tower of maps over zero. -/
def mapTower : Nat → Work
  | 0 => .succeed (.int 0)
  | n + 1 => (mapTower n).map increment

/-- Two effects in order. -/
def Sequel.apply (a b : Work) : Sequel → Work
  | .both => a.zip b
  | .first => a.zipLeft b
  | .second => a.zipRight b

/-- Applies a handler to the effect, whose failures are wrapped first if they should
be. -/
def handling (wrapped : Bool) (e : Work) (handler : (type : ErrorType) → Effect type → Work) :
    Work :=
  if wrapped then handler wrapper (e.mapError pure) else handler plain e

/-- The text of a failure in the defect that is made of it. -/
def failureText (wrapped : Bool) (v : Value) : Action String := do
  let store ← Action.observe
  let text := store.render v
  pure (if wrapped then s!"Alt({text})" else text)

/-- The exit of a failure, as a value. -/
def haltValue (h : Halt Value) : Value := .exit (.halt h)

/-- The handle of a fiber with plain failures. -/
def fiberAt (scope : Scope) (f : Expr) : Action (Fiber plain) := do
  let id ← f.eval scope >>= fiberOf
  pure ⟨id⟩

/-- The cell of an expression. -/
def cellAt (scope : Scope) (r : Expr) : Action CellId := r.eval scope >>= cellOf

/-- The channel of an expression. -/
def channelAt (scope : Scope) (q : Expr) : Action ChannelId := q.eval scope >>= channelOf

/-- The lease of an expression. -/
def leaseAt (scope : Scope) (l : Expr) : Action LeaseId := do
  let v ← l.eval scope
  match v with
  | .lease lease _ => pure lease
  | _ => Action.fail "expected a leak"

/-- The status that an expression holds. -/
def restoreAt (scope : Scope) (r : Expr) : Action Restore := do
  let v ← r.eval scope
  match v with
  | .restore interruptible => pure ⟨interruptible⟩
  | _ => Action.fail "expected a restore handle"

/-- What is made of a value by an expression in which it has a name. -/
def Expr.function (e : Expr) (scope : Scope) (x : String) (v : Value) : Action Value :=
  e.eval (scope.bind x v)

/-- What is made of two values by an expression in which they have names. -/
def Expr.function₂ (e : Expr) (scope : Scope) (x y : String) (v w : Value) : Action Value :=
  e.eval ((scope.bind x v).bind y w)

/-- The test of a value by an expression in which it has a name. -/
def Expr.test (e : Expr) (scope : Scope) (x : String) (v : Value) : Action Bool :=
  e.function scope x v >>= truth

/-- A result and a new value, made of a value by an expression. -/
def Expr.modifier (e : Expr) (scope : Scope) (x : String) (v : Value) :
    Action (Value × Value) :=
  e.function scope x v >>= pairOf

/-- A result and a new value if there are any, made of a value by an expression. -/
def Expr.modifierSome (e : Expr) (scope : Scope) (x : String) (v : Value) :
    Action (Option (Value × Value)) := do
  let chosen ← e.function scope x v >>= optionOf
  match chosen with
  | .none => pure .none
  | .some p => do
    let p ← pairOf p
    pure (.some p)

/-! ### Programs -/

mutual

/-- The effect that a program stands for. -/
def Program.build (scope : Scope) : Program → Action Work
  | .succeed v => do
    let v ← v.eval scope
    pure (.succeed v)
  | .fail v => do
    let v ← v.eval scope
    pure (.fail v)
  | .halt c => do
    let c ← c.eval scope
    pure (.haltCause c)
  | .dieMessage message => do
    let v ← message.eval scope
    let store ← Action.observe
    pure (.dieMessage (spliced store v))
  | .die d => pure (.die d)
  | .done x => do
    let x ← x.eval scope
    pure (.ofExit x)
  | .sync v => pure (.sync (v.eval scope))
  | .trySync good v => pure <| .trySync do
      let v ← v.eval scope
      pure (if good then .ok v else .error v)
  | .log v => pure <| .sync do
      let v ← v.eval scope
      Action.log (.said v)
      pure .unit
  | .suspend body => pure (.suspend (body.build scope))
  | .cond test yes no => do
    let b ← test.eval scope >>= truth
    if b then yes.build scope else no.build scope
  | .access x v => pure (.access (v.function scope x))
  | .accessM x body => pure (.accessM fun v => body.build (scope.bind x v))
  | .environment => pure .environment
  | .fiberId => pure .fiberId
  | .interrupt => pure .interrupt
  | .yieldNow => pure .yieldNow
  | .sleep millis => pure (.sleep millis)
  | .never => pure .never
  | .countTo n => pure (countOn n 0)
  | .leftMaps n => pure (mapTower n)
  | .async acts cancel => pure (.async (register scope acts cancel))
  | .resume slot a => pure <| .sync do
      let won ← a.resume scope slot
      pure (.bool won)
  | .map e x v => do
    let e ← e.build scope
    pure (e.map (v.function scope x))
  | .chain e x body => do
    let e ← e.build scope
    pure (e.chain fun v => body.build (scope.bind x v))
  | .flatten e x body => do
    let e ← e.build scope
    pure (e.chain fun v => body.build (scope.bind x v))
  | .zip sequel a b => do
    let a ← a.build scope
    let b ← b.build scope
    pure (sequel.apply a b)
  | .zipWith a b x y v => do
    let a ← a.build scope
    let b ← b.build scope
    pure (a.zipWith b (v.function₂ scope x y))
  | .as e v => do
    let e ← e.build scope
    let v ← v.eval scope
    pure (e.as v)
  | .asUnit e => do
    let e ← e.build scope
    pure e.asUnit
  | .tap e x body => do
    let e ← e.build scope
    pure (e.tap fun v => Effect.asUnit <$> body.build (scope.bind x v))
  | .forever e => do
    let e ← e.build scope
    pure e.forever
  | .repeatN n e => do
    let e ← e.build scope
    pure (e.repeatN n)
  | .collectAll es => do
    let es ← Program.buildAll scope es
    pure (.collectAll es)
  | .forEach items x body => do
    let vs ← items.eval scope >>= elements
    let es ← vs.mapM fun v => body.build (scope.bind x v)
    pure (.collectAll es)
  | .mapError e x v => do
    let e ← e.build scope
    pure (e.mapError (v.function scope x))
  | .catchFailure wrapped e x body => do
    let e ← e.build scope
    pure (handling wrapped e fun _ e => e.catchFailure fun v => body.build (scope.bind x v))
  | .catchHalt wrapped e x body => do
    let e ← e.build scope
    pure (handling wrapped e fun _ e =>
      e.catchHalt fun h => body.build (scope.bind x (haltValue h)))
  | .fold wrapped e x onFail y onDone => do
    let e ← e.build scope
    pure (handling wrapped e fun _ e =>
      e.fold (onFail.function scope x) (onDone.function scope y))
  | .foldFailure wrapped e x onFail y onDone => do
    let e ← e.build scope
    pure (handling wrapped e fun _ e =>
      e.foldFailure (fun v => onFail.build (scope.bind x v)) fun v =>
        onDone.build (scope.bind y v))
  | .foldHalt wrapped e x onHalt y onDone => do
    let e ← e.build scope
    pure (handling wrapped e fun _ e =>
      e.foldHalt (fun h => onHalt.build (scope.bind x (haltValue h))) fun v =>
        onDone.build (scope.bind y v))
  | .orElse wrapped a b => do
    let a ← a.build scope
    let b ← b.build scope
    pure (handling wrapped a fun _ a => a.orElse b)
  | .either wrapped e => do
    let e ← e.build scope
    pure (handling wrapped e fun _ e => e.either)
  | .result wrapped e => do
    let e ← e.build scope
    pure (handling wrapped e fun _ e => e.result)
  | .orDie wrapped e => do
    let e ← e.build scope
    pure (handling wrapped e fun _ e => e.orDie (failureText wrapped))
  | .bracket acquire x use release => do
    let acquire ← acquire.build scope
    pure (acquire.bracket (fun v => use.build (scope.bind x v)) fun v =>
      Effect.asUnit <$> release.build (scope.bind x v))
  | .bracketExit acquire x use exit release => do
    let acquire ← acquire.build scope
    pure (acquire.bracketExit (fun v => use.build (scope.bind x v)) fun v ended =>
      Effect.asUnit <$> release.build ((scope.bind x v).bind exit (.exit ended)))
  | .onExit e x finalizer => do
    let e ← e.build scope
    pure (e.onExit fun ended => Effect.asUnit <$> finalizer.build (scope.bind x (.exit ended)))
  | .ensuring e finalizer => do
    let e ← e.build scope
    let finalizer ← finalizer.build scope
    pure (e.ensuring finalizer.asUnit)
  | .onInterrupt e finalizer => do
    let e ← e.build scope
    let finalizer ← finalizer.build scope
    pure (e.onInterrupt finalizer.asUnit)
  | .provide v e => do
    let v ← v.eval scope
    let e ← e.build scope
    pure (.provide v e)
  | .provideSome x v e => do
    let e ← e.build scope
    pure (.provideSome (v.function scope x) e)
  | .uninterruptible e => do
    let e ← e.build scope
    pure e.uninterruptible
  | .interruptible e => do
    let e ← e.build scope
    pure e.interruptible
  | .mask x body => pure (.mask fun restore =>
      body.build (scope.bind x (.restore restore.interruptible)))
  | .restore r e => do
    let restore ← restoreAt scope r
    let e ← e.build scope
    pure (restore.apply e)
  | .fork daemon e => do
    let e ← e.build scope
    pure (if daemon then e.forkDaemon else e.fork)
  | .join f => do
    let f ← fiberAt scope f
    f.join
  | .awaitExit f => do
    let f ← fiberAt scope f
    pure f.awaitExit
  | .interruptFiber f => do
    let f ← fiberAt scope f
    pure f.interrupt
  | .signal f => do
    let f ← fiberAt scope f
    pure f.signal
  | .raceFold a b x f onLeft onRight => do
    let a ← a.build scope
    let b ← b.build scope
    pure (a.raceFold b
      (fun ended other =>
        onLeft.build ((scope.bind x (.exit ended)).bind f (.fiber other.id)))
      fun ended other =>
        onRight.build ((scope.bind x (.exit ended)).bind f (.fiber other.id)))
  | .race a b => do
    let a ← a.build scope
    let b ← b.build scope
    pure (a.race b)
  | .zipPar a b => do
    let a ← a.build scope
    let b ← b.build scope
    pure (a.zipPar b)
  | .zipParWith a b x y v => do
    let a ← a.build scope
    let b ← b.build scope
    pure (a.zipParWith b (v.function₂ scope x y))
  | .timeout millis e => do
    let e ← e.build scope
    pure (e.timeout millis)
  | .delay millis e => do
    let e ← e.build scope
    pure (e.delay millis)
  | .collectAllPar es => do
    let es ← Program.buildAll scope es
    pure (.collectAllPar es)
  | .forEachPar items x body => do
    let vs ← items.eval scope >>= elements
    let es ← vs.mapM fun v => body.build (scope.bind x v)
    pure (.collectAllPar es)
  | .retryWhileM e x body => do
    let e ← e.build scope
    pure (e.retryWhileM fun v => body.build (scope.bind x v))
  | .retryWhile e x test => do
    let e ← e.build scope
    pure (e.retryWhile (test.test scope x))
  | .retryUntil e x test => do
    let e ← e.build scope
    pure (e.retryUntil (test.test scope x))
  | .retryN n e => do
    let e ← e.build scope
    pure (e.retryN n)
  | .retryPolicy policy e x test => do
    let e ← e.build scope
    pure (e.retryPolicy policy (test.test scope x))
  | .newCell v => do
    let v ← v.eval scope
    pure (CellId.make v)
  | .getCell r => do
    let cell ← cellAt scope r
    pure cell.get
  | .setCell r v => do
    let cell ← cellAt scope r
    let v ← v.eval scope
    pure (cell.set v)
  | .modify r x v => do
    let cell ← cellAt scope r
    pure (cell.modify (v.modifier scope x))
  | .modifySome r default x v => do
    let cell ← cellAt scope r
    let default ← default.eval scope
    pure (cell.modifySome default (v.modifierSome scope x))
  | .update r x v => do
    let cell ← cellAt scope r
    pure (cell.update (v.function scope x))
  | .updateAndGet r x v => do
    let cell ← cellAt scope r
    pure (cell.updateAndGet (v.function scope x))
  | .getAndUpdate r x v => do
    let cell ← cellAt scope r
    pure (cell.getAndUpdate (v.function scope x))
  | .getAndSet r v => do
    let cell ← cellAt scope r
    let v ← v.eval scope
    pure (cell.getAndSet v)
  | .updateSome r x v => do
    let cell ← cellAt scope r
    pure (cell.updateSome fun current => v.function scope x current >>= optionOf)
  | .newChannel capacity => pure (ChannelId.make capacity)
  | .offer q v => do
    let channel ← channelAt scope q
    let v ← v.eval scope
    pure (channel.offer v)
  | .take q => do
    let channel ← channelAt scope q
    pure channel.take
  | .poll q => do
    let channel ← channelAt scope q
    pure channel.poll
  | .drain q limit => do
    let channel ← channelAt scope q
    pure (channel.drain limit)
  | .size q => do
    let channel ← channelAt scope q
    pure channel.size
  | .isClosed q => do
    let channel ← channelAt scope q
    pure channel.isClosed
  | .close q => do
    let channel ← channelAt scope q
    pure channel.close
  | .awaitClose q => do
    let channel ← channelAt scope q
    pure channel.awaitClose
  | .use m x body => do
    let m ← m.build scope
    pure (m.use fun v => body.build (scope.bind x v))
  | .allocate m => do
    let m ← m.build scope
    pure m.allocate
  | .release l => do
    let lease ← leaseAt scope l
    pure lease.release
  | .releaseExit l x => do
    let lease ← leaseAt scope l
    let x ← x.eval scope
    pure (lease.releaseExit x)

/-- The effects that programs stand for, built in order. -/
def Program.buildAll (scope : Scope) : List Program → Action (List Work)
  | [] => pure []
  | e :: es => do
    let b ← e.build scope
    let bs ← Program.buildAll scope es
    pure (b :: bs)

/-- The resource that a description stands for. -/
def Holding.build (scope : Scope) : Holding → Action (Resource plain)
  | .succeed v => do
    let v ← v.eval scope
    pure (.succeed v)
  | .ofEffect e => do
    let e ← e.build scope
    pure (.ofEffect e)
  | .fail v => do
    let v ← v.eval scope
    pure (.fail v)
  | .bracket acquire x release => do
    let acquire ← acquire.build scope
    pure (.bracket acquire fun v => Effect.asUnit <$> release.build (scope.bind x v))
  | .bracketExit acquire x exit release => do
    let acquire ← acquire.build scope
    pure (.bracketExit acquire fun v ended =>
      Effect.asUnit <$> release.build ((scope.bind x v).bind exit (.exit ended)))
  | .suspend body => pure (.suspend (body.build scope))
  | .fiber e => do
    let e ← e.build scope
    pure (.fiber e)
  | .chain m x body => do
    let m ← m.build scope
    pure (m.chain fun v => body.build (scope.bind x v))
  | .chainTap m x body => do
    let m ← m.build scope
    pure (m.chainTap fun v => body.build (scope.bind x v))
  | .map m x v => do
    let m ← m.build scope
    pure (m.map (v.function scope x))
  | .as m v => do
    let m ← m.build scope
    let v ← v.eval scope
    pure (m.as v)
  | .zip a b => do
    let a ← a.build scope
    let b ← b.build scope
    pure (a.zip b)
  | .zipWith a b x y v => do
    let a ← a.build scope
    let b ← b.build scope
    pure (a.zipWith b (v.function₂ scope x y))
  | .parZip a b => do
    let a ← a.build scope
    let b ← b.build scope
    pure (a.parZip b)
  | .parZipWith a b x y v => do
    let a ← a.build scope
    let b ← b.build scope
    pure (a.parZipWith b (v.function₂ scope x y))
  | .provideSome m x v => do
    let m ← m.build scope
    pure (.provideSome (v.function scope x) m)

end

end Fibers.Script
